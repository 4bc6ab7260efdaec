import FlatTree.Proofs.Printing
import FlatTree.Proofs.RoundTrip
import FlatTree.Proofs.Strictness

/-!
# How a run ends

Once the forest and the settings are read, there are two ways for a run to fail. Either the strict
policy refuses the forest, and nothing is printed; or a node that was stored refers to an identity
that the data notation cannot write, and then the tree and its summary are printed but no forest.
Nothing else that could go wrong does, and if nothing is wrong the report says what the import did.
-/

namespace FlatTree

/-- What an import stores is what it comes to. -/
theorem Import.Grafted.mem_stored_iff {sentinel : Option Nat} {forest : Forest} {target : NodeId}
    {before after : Outline} {report : ImportReport} {place : Nat → NodeId}
    (h : Grafted sentinel forest target before after report place) {e : ExternalNode × Nat} :
    e ∈ report.stored forest ↔ forest[e.2]? = some e.1 ∧ Reached sentinel forest e.2 := by
  rw [ImportReport.stored, List.mem_filter, decide_eq_true_eq, h.dropped,
    List.mem_zipIdx_iff_getElem?]
  refine and_congr_right fun hget => ?_
  have hlt := (List.getElem?_eq_some_iff.mp hget).1
  simp [hlt]

theorem Attribute.le_of_farRef? {a : Attribute} {id : NodeId} (h : a.farRef? = some id) :
    0x8000000000000000 ≤ id.val := by
  cases a with
  | ref id' =>
    rw [farRef?] at h
    split at h
    · cases h
      assumption
    · cases h
  | _ => cases h

namespace Report

/-- The table with the root of a run alone, which the forest is brought into. -/
def ground : Table :=
  (Table.empty.insert rootAttributes Interval.root).2

private theorem ground_draws : ground.Draws (Outline.empty.plant rootAttributes) :=
  Table.Draws.empty.plant rfl rootAttributes

theorem insertRoot_empty : Store.empty.insertRoot Faults.none rootAttributes =
    (.ok ⟨⟨1⟩, Interval.root, rootAttributes⟩, ⟨ground, ⟨1⟩⟩) := by
  rw [Store.insertRoot, Store.change_none, Work.insertRoot, Store.empty, Table.Draws.empty.root?_eq]
  rfl

/-- The strict policy refuses a forest: an identity repeats, a reference leads nowhere, or a chain
of references does not lead to the top. -/
def Rejected (settings : ImportSettings) (forest : Forest) : Prop :=
  settings.dangling = .fail ∧
    (¬(forest.filterMap (·.id)).Nodup ∨
      (∃ n ∈ forest, ¬Import.Resolves settings.sentinel forest n) ∨
      ∃ i < forest.length, ¬Import.Anchored settings.sentinel forest i)

/-- An attribute is a reference that does not fit an integer of 64 bits. -/
def HasFarRef (attributes : Attributes) : Prop :=
  ∃ name id, attributes.get? name = some (.ref id) ∧ 0x8000000000000000 ≤ id.val

/-- A node that an import comes to has such an attribute. -/
def CarriesFarRef (settings : ImportSettings) (forest : Forest) : Prop :=
  ∃ i n, Import.Reached settings.sentinel forest i ∧ forest[i]? = some n ∧ HasFarRef n.attributes

/-- What was imported is what the report and the summary say. -/
structure Summed (forest : Forest) (i : Imported) : Prop where
  nodes : i.summary.nodes = i.report.inserted + 1
  parts : i.report.inserted + i.report.dropped.length = forest.length
  rows : i.table.rows.length = i.summary.nodes
  depth_le : ∀ r ∈ i.table.rows, r.interval.depth ≤ i.summary.maxDepth
  deepest : ∃ r ∈ i.table.rows, r.interval.depth = i.summary.maxDepth

/-- The line of a row, with all that it tells: two blanks for each node above it, its identity, its
place, its name in quotes if it has a text for one, and how many nodes are below it. -/
def Spelled (o : Outline) (r : Row) (line : String) : Prop :=
  ∃ above below name, o.grove.above? r.id = some above ∧
    o.grove.subtree? r.id = some ⟨r.item, below⟩ ∧
    name = (match r.attributes.get? "name" with
      | some (.string s) => " " ++ Quoted.quote s
      | _ => "") ∧
    line = String.ofList (List.replicate (2 * above.length) ' ') ++
      s!"#{r.id.val} [{r.interval.left}, {r.interval.right}]@{r.interval.depth}{name} " ++
      s!"({below.size} below)\n"

/-- The text of an import: the tree depth first, one line for each row, and at the end a line with
the nodes that were stored, those that were dropped, all nodes of the tree, and its depth. -/
def Prints (settings : Settings) (i : Imported) (text : String) : Prop :=
  ∃ o order lines, i.table.rows.Perm (Outline.rows o) ∧
    i.table.DepthFirst o settings.defaultOrder order ∧ List.Forall₂ (Spelled o) order lines ∧
    text = String.join lines ++
      (s!"{i.report.inserted} imported, {i.report.dropped.length} dropped, " ++
        s!"{i.summary.nodes} nodes, depth {i.summary.maxDepth}\n")

/-- The tree that a walk of the table lists. -/
def walked (settings : Settings) (t : Table) (root : Row) : Tree Item :=
  ⟨root.item, (t.under settings.defaultOrder root).map Row.item⟩

variable {settings : Settings} {forest : Forest}

/-- An imported forest is a tree whose root is that of the run, grafted onto it. -/
structure Grows (settings : Settings) (forest : Forest) (i : Imported) (tree : Tree Item)
    (place : Nat → NodeId) : Prop where
  rows : i.table.rows.Perm (Outline.mk (some tree) i.table.nextId).rows
  root : tree.root = i.root.item
  summary : i.summary = tree.summary
  grafted : Import.Grafted settings.imports.sentinel forest ⟨1⟩
    (Outline.empty.plant rootAttributes) ⟨some tree, i.table.nextId⟩ i.report place

theorem findSome?_farRef?_eq_none_iff_not {attributes : Attributes} :
    attributes.entries.findSome? (·.2.farRef?) = none ↔ ¬HasFarRef attributes := by
  simp only [ExternalNode.findSome?_farRef?_eq_none_iff, HasFarRef, not_exists, not_and, Nat.not_le]

private theorem not_rejected_of_acceptable {t : Table} {target : NodeId}
    (h : settings.imports.dangling = .fail →
      Import.Acceptable settings.imports.sentinel forest t target) :
    ¬Rejected settings.imports forest := by
  rintro ⟨hfail, hn | ⟨n, hmem, hn⟩ | ⟨i, hi, hn⟩⟩
  · exact hn (h hfail).distinct
  · exact hn ((h hfail).resolved n hmem)
  · exact hn ((h hfail).anchored i hi)

private theorem rejected_of_refused (hfail : settings.imports.dangling = .fail) {e : TreeError}
    (he : Import.Refused settings.imports.sentinel forest ground ⟨1⟩ e) :
    Rejected settings.imports forest := by
  refine ⟨hfail, ?_⟩
  by_contra hnot
  simp only [not_or, not_exists, not_and, not_not] at hnot
  obtain ⟨hdistinct, hresolved, hanchored⟩ := hnot
  have htarget : ground.get? ⟨1⟩ ≠ none := by decide
  exact Store.not_acceptable_of_refused (s := ⟨ground, ⟨1⟩⟩)
    (Table.sound_iff_draws.mpr ⟨_, ground_draws⟩) he ⟨hdistinct, hresolved, htarget, hanchored⟩

private theorem spelled_of_shows {o : Outline} {r : Row} {line : String} (h : o.Shows r line) :
    Spelled o r line := by
  obtain ⟨below, above, hsub, habove, rfl, -⟩ := h
  refine ⟨above, below, _, habove, hsub, rfl, ?_⟩
  rw [Row.shown, Row.text, Row.stringAttribute?, ← String.toList_inj]
  cases r.attributes.get? "name" with
  | none => simp [NodeId.text, Interval.text, toString]
  | some a => cases a <;> simp [NodeId.text, Interval.text, toString]

/-- The import of a run is refused, or it grows a tree. -/
theorem importUnderRoot_cases (settings : Settings) (forest : Forest) :
    (∃ e, Rejected settings.imports forest ∧
      Import.Refused settings.imports.sentinel forest ground ⟨1⟩ e ∧
      importUnderRoot settings forest = .error e) ∨
    ∃ i tree place, ¬Rejected settings.imports forest ∧ importUnderRoot settings forest = .ok i ∧
      Grows settings forest i tree place := by
  have htarget : (⟨1⟩ : NodeId) ∈ (Outline.empty.plant rootAttributes).ids := by decide
  have hcases := Store.importForest_cases (s := ⟨ground, ⟨1⟩⟩) ground_draws htarget settings.imports
    forest
  rcases hcases with
    ⟨e, hfail, he, himport⟩ | ⟨report, t, after, place, himport, hafter, hgrafted, hacceptable⟩
  · refine .inl ⟨e, rejected_of_refused hfail he, he, ?_⟩
    simp only [importUnderRoot, insertRoot_empty, bind, Except.bind, himport]
  · obtain ⟨tree, htree, hroot⟩ := Option.map_eq_some_iff.mp hgrafted.root
    obtain ⟨_, nextId⟩ := after
    obtain rfl : _ = some tree := htree
    obtain rfl : t.nextId = nextId := hafter.nextId
    refine .inr ⟨⟨t, ⟨⟨1⟩, Interval.root, rootAttributes⟩, report, tree.summary⟩, tree, place,
      not_rejected_of_acceptable hacceptable, ?_, ⟨hafter.rows, hroot, rfl, hgrafted⟩⟩
    simp only [importUnderRoot, insertRoot_empty, bind, Except.bind, himport,
      Table.verify_of_perm hafter.rows]
    rfl

/-! ## What is printed -/

namespace Grows

variable {i : Imported} {tree : Tree Item} {place : Nat → NodeId}

/-- The tree has the root of the run, and a node for each one that was stored. -/
theorem size_tree (h : Grows settings forest i tree place) :
    tree.grove.size = i.report.inserted + 1 := by
  have hitems := h.grafted.items.length_eq
  have hfresh := h.grafted.fresh.length_eq
  rw [List.length_map, List.length_map, List.length_range] at hfresh
  rw [List.length_append, List.length_map, hfresh, Grove.length_items, Grove.length_items] at hitems
  exact hitems.trans (Nat.add_comm 1 _)

private theorem summed (h : Grows settings forest i tree place) : Summed forest i where
  nodes := by
    rw [h.summary]
    exact h.size_tree
  parts := h.grafted.inserted
  rows := by
    rw [h.summary, h.rows.length_eq, Outline.length_rows]
    rfl
  depth_le := by
    intro r hr
    have hlt := Grove.depth_lt_of_mem_tour (Table.mem_tour_of_perm h.rows hr)
    rw [h.summary]
    simp only [Outline.grove, Tree.grove, Grove.height, Tree.summary] at hlt ⊢
    omega
  deepest := by
    have hne : tree.grove ≠ .nil := by simp [Tree.grove]
    obtain ⟨e, he, hdepth⟩ := Grove.exists_deepest hne 0 1
    have hmem : e.1.row e.2 ∈ i.table.rows := h.rows.symm.subset (Outline.mem_rows.mpr he)
    refine ⟨_, hmem, ?_⟩
    rw [h.summary]
    simp only [Tree.grove, Grove.height, Tree.summary, Item.row] at hdepth ⊢
    omega

/-- The tree is printed depth first, one line for each row, and then the summary. -/
theorem exists_treeText (h : Grows settings forest i tree place) :
    ∃ text, treeText settings i = .ok text ∧ Prints settings i text := by
  have hroot := Table.rootRow_mem h.rows rfl
  have hrequire := Table.requireRoot_of_perm h.rows rfl
  have hannotate := Table.annotateNode_of_mem hroot
  have hlines := Table.lines_of_mem settings.defaultOrder hroot
    (n := i.table.annotated .recursive tree.rootRow) rfl
  have hall : (i.table.order settings.defaultOrder tree.rootRow).Perm i.table.rows :=
    Table.under_rootRow_perm settings.defaultOrder h.rows
  have hspelled : List.Forall₂ (Spelled ⟨some tree, i.table.nextId⟩)
      (i.table.order settings.defaultOrder tree.rootRow)
      ((i.table.order settings.defaultOrder tree.rootRow).map fun r =>
        Table.line (i.table.annotated .recursive r)) := by
    rw [List.forall₂_map_right_iff, List.forall₂_same]
    exact fun r hr => spelled_of_shows (Table.shows_line h.rows (hall.subset hr))
  refine ⟨_, ?_, _, _, _, h.rows, Table.depthFirst_order h.rows hall, hspelled, rfl⟩
  simp only [treeText, hrequire, hannotate, hlines, bind, Except.bind, pure, Except.pure]
  rfl

theorem exported_eq (h : Grows settings forest i tree place) :
    exported settings i = .ok (walked settings i.table tree.rootRow).exported := by
  have hroot := Table.rootRow_mem h.rows rfl
  have hid : i.root.id = tree.rootRow.id := congrArg Item.id h.root.symm
  have hview : i.table.viewById tree.rootRow.id = .ok (tree.root.external none) := by
    rw [Table.viewById, Table.require_eq_ok_iff.mpr ⟨hroot, rfl⟩]
    rfl
  rw [exported, hid, hview, Table.exportBelow_of_mem settings.defaultOrder hroot]
  rfl

theorem items_walked_perm (h : Grows settings forest i tree place) :
    (walked settings i.table tree.rootRow).grove.items.Perm (i.table.rows.map Row.item) := by
  have hrows := (Table.under_rootRow_perm settings.defaultOrder h.rows).map Row.item
  simpa [walked, Tree.grove, Grove.items] using hrows

/-- What the entries of the exported forest have from their rows. -/
theorem map_exported_perm {β : Type} {f : ExternalNode → β}
    (hf : ∀ x q, f (Item.external q x) = f (x.external none))
    (h : Grows settings forest i tree place) {out : Forest} (hout : exported settings i = .ok out) :
    (out.map f).Perm (i.table.rows.map fun r => f (r.item.external none)) := by
  cases h.exported_eq.symm.trans hout
  rw [Tree.map_exported hf]
  have hitems := h.items_walked_perm.map fun x => f (x.external none)
  rwa [List.map_map] at hitems

private theorem largeNumber?_exported (h : Grows settings forest i tree place) {out : Forest}
    (hout : exported settings i = .ok out)
    (hids : ∀ r ∈ i.table.rows, r.id.val < 0x8000000000000000) {n : ExternalNode} (hn : n ∈ out) :
    n.largeNumber? = none := by
  cases h.exported_eq.symm.trans hout
  obtain ⟨x, hx, parent, hparent, rfl⟩ := Tree.exists_of_mem_exported hn
  have hitem : ∀ y ∈ (walked settings i.table tree.rootRow).grove.items,
      y.id.val < 0x8000000000000000 := by
    intro y hy
    obtain ⟨r, hr, rfl⟩ := List.mem_map.mp (h.items_walked_perm.subset hy)
    exact hids r hr
  refine ExternalNode.largeNumber?_eq_none_iff.mpr fun k hk => ?_
  rcases hk with hk | hk | hk | hk
  · cases hk
    exact hitem x hx
  · obtain ⟨q, hq, rfl⟩ := Option.map_eq_some_iff.mp hk
    obtain ⟨y, hy, rfl⟩ := Grove.mem_ids.mp (hparent q hq)
    exact hitem y hy
  · cases hk
  · cases hk

/-- The nodes of the tree are the root and the copies of the nodes that were stored. -/
theorem map_item_perm (h : Grows settings forest i tree place) :
    (i.table.rows.map Row.item).Perm
      (⟨⟨1⟩, rootAttributes⟩ :: (i.report.stored forest).map (Import.copy place)) :=
  (h.rows.map Row.item).trans (Outline.map_item_rows _ ▸ h.grafted.items)

/-- Identities are as few as the nodes of the forest, and the root. -/
theorem id_le (h : Grows settings forest i tree place) {r : Row} (hr : r ∈ i.table.rows) :
    r.id.val ≤ forest.length + 1 := by
  have hinserted := h.grafted.inserted
  rcases List.mem_cons.mp (h.map_item_perm.subset (List.mem_map_of_mem hr)) with hroot | hcopy
  · have hid : r.id = ⟨1⟩ := congrArg Item.id hroot
    rw [hid]
    exact Nat.le_add_left 1 _
  · obtain ⟨e, he, hcopy⟩ := List.mem_map.mp hcopy
    have hid : place e.2 = r.id := congrArg Item.id hcopy
    obtain ⟨k, hk, hplace⟩ := List.mem_map.mp (h.grafted.fresh.subset (List.mem_map_of_mem he))
    have hlt := List.mem_range.mp hk
    have hval : r.id.val = 2 + k := by
      rw [← hid, ← hplace]
      rfl
    omega

/-- The exported forest has a reference that does not fit just if a node that was stored has one. -/
theorem exists_farRef_iff (h : Grows settings forest i tree place) {out : Forest}
    (hout : exported settings i = .ok out) :
    (∃ n ∈ out, HasFarRef n.attributes) ↔ CarriesFarRef settings.imports forest := by
  have hattributes : (out.map (·.attributes)).Perm
      (rootAttributes :: (i.report.stored forest).map (·.1.attributes)) := by
    have hrows := h.map_item_perm.map (·.attributes)
    rw [List.map_map, List.map_cons, List.map_map] at hrows
    exact (h.map_exported_perm (f := (·.attributes)) (fun _ _ => rfl) hout).trans hrows
  have hroot : ¬HasFarRef rootAttributes := by
    rw [← findSome?_farRef?_eq_none_iff_not]
    rfl
  calc
    _ ↔ ∃ a ∈ out.map (·.attributes), HasFarRef a := by simp
    _ ↔ ∃ a ∈ rootAttributes :: (i.report.stored forest).map (·.1.attributes), HasFarRef a := by
      simp only [hattributes.mem_iff]
    _ ↔ ∃ e ∈ i.report.stored forest, HasFarRef e.1.attributes := by
      simp [hroot]
    _ ↔ CarriesFarRef settings.imports forest := by
      simp only [h.grafted.mem_stored_iff, CarriesFarRef]
      exact ⟨fun ⟨e, ⟨hget, hreached⟩, hfar⟩ => ⟨e.2, e.1, hreached, hget, hfar⟩,
        fun ⟨k, n, hreached, hget, hfar⟩ => ⟨(n, k), ⟨hget, hreached⟩, hfar⟩⟩

end Grows

/-- A forest whose numbers fit has a text unless a reference does not fit. -/
theorem emit_cases {out : Forest} (h : ∀ n ∈ out, n.largeNumber? = none) :
    ((∃ n ∈ out, HasFarRef n.attributes) ∧ ∃ id : NodeId, 0x8000000000000000 ≤ id.val ∧
      Forest.emit out = .error (.refOutOfRange id)) ∨
    (¬∃ n ∈ out, HasFarRef n.attributes) ∧ ∃ text, Forest.emit out = .ok text := by
  -- the numbers are looked at first; since they fit, only a reference can be refused
  have hrefusal : ∀ n ∈ out, n.refusal? =
      (n.attributes.entries.findSome? (·.2.farRef?)).map .refOutOfRange := by
    intro n hn
    rw [ExternalNode.refusal?, h n hn]
  cases hout : Forest.toEdn out with
  | error e =>
    obtain ⟨n, hn, he⟩ := List.exists_of_findSome?_eq_some (Forest.toEdn_eq_error_iff.mp hout)
    rw [hrefusal n hn] at he
    obtain ⟨id, hid, rfl⟩ := Option.map_eq_some_iff.mp he
    obtain ⟨⟨name, a⟩, -, hfar⟩ := List.exists_of_findSome?_eq_some hid
    refine .inl ⟨⟨n, hn, ?_⟩, id, Attribute.le_of_farRef? hfar, by rw [Forest.emit, hout]; rfl⟩
    by_contra hnot
    rw [findSome?_farRef?_eq_none_iff_not.mpr hnot] at hid
    cases hid
  | ok v =>
    refine .inr ⟨?_, v.text, by rw [Forest.emit, hout]; rfl⟩
    rintro ⟨n, hn, hfar⟩
    have hnone : out.findSome? ExternalNode.refusal? = none := by
      rw [Option.eq_none_iff_forall_ne_some]
      intro e he
      cases hout.symm.trans (Forest.toEdn_eq_error_iff.mpr he)
    have hn' := List.findSome?_eq_none_iff.mp hnone n hn
    rw [hrefusal n hn, Option.map_eq_none_iff] at hn'
    exact findSome?_farRef?_eq_none_iff_not.mp hn' hfar

/-! ## The three ends -/

/-- A forest with one entry for each row. -/
def Lists (i : Imported) (out : Forest) : Prop :=
  (out.map (·.id)).Perm (i.table.rows.map fun r => some r.id.val)

/-- A run that is over: the forest was rejected, or it was brought in and printed, and then the
export failed or succeeded. -/
theorem ofForest_cases (hids : ∀ i, importUnderRoot settings forest = .ok i →
      ∀ r ∈ i.table.rows, r.id.val < 0x8000000000000000) :
    (∃ e, Rejected settings.imports forest ∧
      Import.Refused settings.imports.sentinel forest ground ⟨1⟩ e ∧
      ofForest settings forest = ⟨"", some (.tree e)⟩) ∨
    ∃ i tree place text, ¬Rejected settings.imports forest ∧
      importUnderRoot settings forest = .ok i ∧ Grows settings forest i tree place ∧
      Summed forest i ∧ Prints settings i text ∧
      ((CarriesFarRef settings.imports forest ∧ ∃ id : NodeId, 0x8000000000000000 ≤ id.val ∧
          ofForest settings forest = ⟨text, some (.encoding (.refOutOfRange id))⟩) ∨
        (¬CarriesFarRef settings.imports forest ∧ ∃ out forestText,
          exported settings i = .ok out ∧ Lists i out ∧ Forest.emit out = .ok forestText ∧
          ofForest settings forest = ⟨text ++ (forestText ++ "\n"), none⟩)) := by
  rcases importUnderRoot_cases settings forest with
    ⟨e, hrejected, hrefused, himport⟩ | ⟨i, tree, place, hnot, himport, h⟩
  · exact .inl ⟨e, hrejected, hrefused, by rw [ofForest, himport]⟩
  obtain ⟨text, htext, hprints⟩ := h.exists_treeText
  have hout := h.exported_eq
  have hfarRef := h.exists_farRef_iff hout
  refine .inr ⟨i, tree, place, text, hnot, himport, h, h.summed, hprints, ?_⟩
  rcases emit_cases fun n hn => h.largeNumber?_exported hout (hids i himport) hn with
    ⟨hfar, id, hle, hemit⟩ | ⟨hnone, forestText, hemit⟩
  · refine .inl ⟨hfarRef.mp hfar, id, hle, ?_⟩
    simp only [ofForest, himport, htext, exportText, hout, hemit, bind, Except.bind,
      Except.mapError]
  · refine .inr ⟨fun hfar => hnone (hfarRef.mpr hfar), _, forestText, hout,
      h.map_exported_perm (f := (·.id)) (fun _ _ => rfl) hout, hemit, ?_⟩
    simp only [ofForest, himport, htext, exportText, hout, hemit, bind, Except.bind,
      Except.mapError, pure, Except.pure]

theorem exitCode_eq_one_iff {o : Outcome} : o.exitCode = 1 ↔ o.failure ≠ none := by
  rw [Outcome.exitCode]
  cases o.failure with
  | none => decide
  | some e => simp

theorem exitCode_eq_zero_iff {o : Outcome} : o.exitCode = 0 ↔ o.failure = none := by
  rw [Outcome.exitCode]
  cases o.failure with
  | none => simp
  | some e => simp

/-- A run whose forest and settings could be read, and whose identities fit integers of 64 bits,
fails in two cases: the forest is rejected, and then nothing is printed, or a node that was stored
has a reference that does not fit, and then the tree and the summary are printed but no forest. In
every other case it prints all three. The tree is the root with the forest grafted onto it. -/
theorem run_ends (settings : Settings) (forest : Forest)
    (hids : ∀ i, importUnderRoot settings forest = .ok i →
      ∀ r ∈ i.table.rows, r.id.val < 0x8000000000000000) :
    (Rejected settings.imports forest →
      ∃ e, Import.Refused settings.imports.sentinel forest ground ⟨1⟩ e ∧
        ofForest settings forest = ⟨"", some (.tree e)⟩) ∧
    (¬Rejected settings.imports forest →
      ∃ i tree place text, importUnderRoot settings forest = .ok i ∧
        Grows settings forest i tree place ∧ Summed forest i ∧ Prints settings i text ∧
        (CarriesFarRef settings.imports forest → ∃ id : NodeId, 0x8000000000000000 ≤ id.val ∧
          ofForest settings forest = ⟨text, some (.encoding (.refOutOfRange id))⟩) ∧
        (¬CarriesFarRef settings.imports forest → ∃ out forestText,
          exported settings i = .ok out ∧ Lists i out ∧ Forest.emit out = .ok forestText ∧
          ofForest settings forest = ⟨text ++ (forestText ++ "\n"), none⟩)) ∧
    ((ofForest settings forest).exitCode = 1 ↔
      Rejected settings.imports forest ∨ CarriesFarRef settings.imports forest) ∧
    ((ofForest settings forest).exitCode = 0 ↔
      ¬(Rejected settings.imports forest ∨ CarriesFarRef settings.imports forest)) ∧
    ∀ files, readArguments files = .ok (forest, settings) →
      run files = ofForest settings forest := by
  have hrun : ∀ files, readArguments files = .ok (forest, settings) →
      run files = ofForest settings forest := by
    intro files h
    rw [run, h]
  rw [exitCode_eq_one_iff, exitCode_eq_zero_iff]
  rcases ofForest_cases hids with ⟨e, hrejected, hrefused, hof⟩ |
    ⟨i, tree, place, text, hnot, himport, hgrows, hsummed, hprints, hend⟩
  · exact ⟨fun _ => ⟨e, hrefused, hof⟩, fun hnot => absurd hrejected hnot, by simp [hof, hrejected],
      by simp [hof, hrejected], hrun⟩
  rcases hend with ⟨hfar, id, hle, hof⟩ | ⟨hfar, hof⟩
  · exact ⟨fun h => absurd h hnot, fun _ => ⟨i, tree, place, text, himport, hgrows, hsummed,
      hprints, fun _ => ⟨id, hle, hof⟩, fun h => absurd hfar h⟩, by simp [hof, hfar],
      by simp [hof, hfar], hrun⟩
  · refine ⟨fun h => absurd h hnot, fun _ => ⟨i, tree, place, text, himport, hgrows, hsummed,
      hprints, fun h => absurd h hfar, fun _ => hof⟩, ?_, ?_, hrun⟩
    · obtain ⟨out, forestText, -, -, -, hof⟩ := hof
      simp [hof, hnot, hfar]
    · obtain ⟨out, forestText, -, -, -, hof⟩ := hof
      simp [hof, hnot, hfar]

/-- The run without arguments: nothing is wrong with it, and it prints everything. -/
theorem run_ends_sample :
    let settings := Settings.default
    (∀ i, importUnderRoot settings sample = .ok i →
      ∀ r ∈ i.table.rows, r.id.val < 0x8000000000000000) ∧
    ¬Rejected settings.imports sample ∧ ¬CarriesFarRef settings.imports sample ∧
    (∃ i tree place text out forestText, importUnderRoot settings sample = .ok i ∧
      Grows settings sample i tree place ∧ Summed sample i ∧ Prints settings i text ∧
      exported settings i = .ok out ∧ Lists i out ∧
      Forest.emit out = .ok forestText ∧
      ofForest settings sample = ⟨text ++ (forestText ++ "\n"), none⟩) ∧
    (run []).exitCode = 0 := by
  intro settings
  have hids : ∀ i, importUnderRoot settings sample = .ok i →
      ∀ r ∈ i.table.rows, r.id.val < 0x8000000000000000 := by
    intro i himport r hr
    rcases importUnderRoot_cases settings sample with
      ⟨e, -, -, herror⟩ | ⟨i', tree, place, -, hok, h⟩
    · cases herror.symm.trans himport
    · cases hok.symm.trans himport
      have hle := h.id_le hr
      have hlength : sample.length = 4 := rfl
      omega
  have hrejected : ¬Rejected settings.imports sample := by
    rintro ⟨hfail, -⟩
    cases hfail
  have hfar : ¬CarriesFarRef settings.imports sample := by
    rintro ⟨k, n, -, hn, hfar⟩
    have hnone : ∀ n ∈ sample, n.attributes.entries.findSome? (·.2.farRef?) = none := by decide
    exact findSome?_farRef?_eq_none_iff_not.mp (hnone n (List.mem_of_getElem? hn)) hfar
  obtain ⟨-, hends, -, hzero, hrun⟩ := run_ends settings sample hids
  obtain ⟨i, tree, place, text, himport, hgrows, hsummed, hprints, -, hdone⟩ := hends hrejected
  obtain ⟨out, forestText, hout, hlists, hemit, hof⟩ := hdone hfar
  refine ⟨hids, hrejected, hfar,
    ⟨i, tree, place, text, out, forestText, himport, hgrows, hsummed, hprints, hout, hlists, hemit,
      hof⟩, ?_⟩
  rw [hrun [] rfl, hzero, not_or]
  exact ⟨hrejected, hfar⟩

end Report

end FlatTree
