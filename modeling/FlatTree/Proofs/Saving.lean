import FlatTree.Proofs.Displacement
import FlatTree.Proofs.Walks

/-!
# Saving nodes from outside

A node that comes from outside is stored under the node it refers to. Without a reference it goes
under the root, and where there is none a root without attributes is stored first, in the same unit
of work. In each case the table is the one that an insertion under this parent leaves, and what is
answered agrees with what the queries find afterwards. The views of children refer back to where the
query for a parent leads.
-/

namespace FlatTree

/-- A node stored under a parent. The answer shows it under the next identity and with a reference
to the parent; in the new table the parent is found above it, and lists it after the children it
had. No other row is stored or changed than by an insertion there. -/
structure Store.Saved (ground : Store) (n : ExternalNode) (parent : NodeId) (view : ExternalNode)
    (t' : Table) : Prop where
  view : view = ⟨some ground.table.nextId, some parent.val, n.attributes, none, none⟩
  parentOf : ∃ p, t'.parentOf ⟨ground.table.nextId⟩ (-1) = .ok (some p) ∧ p.id = parent
  lastChild : ∃ before earlier r,
    ground.table.childrenOf (Settings.default.orderOr []) parent true = .ok before ∧
      t'.childrenOf (Settings.default.orderOr []) parent true = .ok (earlier ++ [r]) ∧
      earlier.map Row.item = before.map Row.item ∧
      r.item = ⟨⟨ground.table.nextId⟩, n.attributes⟩
  insert : ∃ r, ground.insert Faults.none n.attributes (some parent) =
    (.ok r, ⟨t', ground.version.next⟩) ∧ r.item = ⟨⟨ground.table.nextId⟩, n.attributes⟩

/-- A save that ends well, with one commit, and leaves a node under a parent that was there or was
stored on the way. -/
def Store.Saves (s ground : Store) (n : ExternalNode) (parent : NodeId) : Prop :=
  ∃ view t', s.save Faults.none n = (.ok view, ⟨t', s.version.next⟩) ∧
    ground.Saved n parent view t'

/-- The views of the children of a node are those of the rows that are listed for it, and refer to
the node that is found above each of them. No parent means the root. -/
structure Table.ReferBack (t : Table) (keys : List SortKey) (mode : Annotate) : Prop where
  stored : ∀ r ∈ t.rows, ∃ children, t.childrenOf keys r.id true = .ok children ∧
    t.viewChildrenOf keys (some r.id) mode =
      .ok (children.map fun c => ExternalNode.ofChild r.id (t.annotated mode c))
  gone : ∀ id, t.get? id = none → t.viewChildrenOf keys (some id) mode = .error (.notFound id)
  parent : ∀ parent views, t.viewChildrenOf keys parent mode = .ok views → ∀ v ∈ views,
    ∃ (id : NodeId) (p : Row), v.id = some id.val ∧ t.parentOf id (-1) = .ok (some p) ∧
      v.parent = some p.id.val
  root : ∀ root, t.root? = .ok (some root) →
    t.viewChildrenOf keys none mode = t.viewChildrenOf keys (some root.id) mode
  noRoot : t.rows = [] → t.viewChildrenOf keys none mode = .error .rootMissing

/-! ## A new last child -/

namespace Table

variable {t : Table} {o : Outline} {p : Row}

theorem Draws.rows_eq_nil_iff (h : t.Draws o) : t.rows = [] ↔ o.tree = none := by
  rw [← List.length_eq_zero_iff, h.rows.length_eq, Outline.length_rows, Grove.size_eq_zero_iff,
    Outline.grove]
  cases o.tree <;> simp [Tree.grove]

/-- The children of a row in the order of the tree. -/
theorem exists_children_default (h : t.Draws o) (hp : p ∈ t.rows) :
    ∃ rows, t.childrenOf (Settings.default.orderOr []) p.id true = .ok rows ∧
      rows.map Row.item = o.grove.childrenOf p.id := by
  obtain ⟨below, hsub, -⟩ := h.subtree? hp
  exact map_eq_ok_iff.mp (map_childrenOf_default h.rows hp hsub true)

private theorem exists_mem_placeUnder (h : t.Draws o) (hp : p ∈ t.rows) (attributes : Attributes) :
    ∃ p' ∈ (t.placeUnder attributes p).2.rows, p'.id = p.id := by
  have hsublist := (Grove.items_sublist_insertUnder o.grove p.id (o.fresh attributes)).map (·.id)
  have hid : p.id ∈ (o.place attributes p.id).ids := by
    rw [Outline.ids, Outline.grove_place]
    exact hsublist.subset (h.id_mem hp)
  obtain ⟨p', hp'⟩ := (h.place hp attributes).exists_of_mem hid
  exact ⟨p', get?_eq_some_iff.mp hp'⟩

/-- A row that is placed under another comes last among its children, which have stayed. -/
theorem exists_lastChild (h : t.Draws o) (hp : p ∈ t.rows) (attributes : Attributes) :
    ∃ before earlier r, t.childrenOf (Settings.default.orderOr []) p.id true = .ok before ∧
      (t.placeUnder attributes p).2.childrenOf (Settings.default.orderOr []) p.id true =
        .ok (earlier ++ [r]) ∧
      earlier.map Row.item = before.map Row.item ∧ r.item = ⟨⟨t.nextId⟩, attributes⟩ := by
  obtain ⟨before, hbefore, hitems⟩ := exists_children_default h hp
  obtain ⟨p', hp', hid⟩ := exists_mem_placeUnder h hp attributes
  obtain ⟨rows, hrows, hitems'⟩ := exists_children_default (h.place hp attributes) hp'
  rw [Outline.grove_place, Grove.childrenOf_insertUnder h.nodup (h.id_mem hp), hid, if_pos rfl,
    ← hitems, Outline.fresh, ← h.nextId] at hitems'
  obtain ⟨earlier, last, rfl, hearlier, hlast⟩ := List.map_eq_append_iff.mp hitems'
  obtain ⟨r, rfl, hr⟩ := List.map_eq_singleton_iff.mp hlast
  exact ⟨before, earlier, r, hbefore, hid ▸ hrows, hearlier, hr⟩

/-- Above a row that is listed as a child the parent is found. -/
theorem parentOf_of_mem_children (h : t.Draws o) (hp : p ∈ t.rows) {keys : List SortKey}
    {rows : List Row} (hrows : t.childrenOf keys p.id true = .ok rows) {c : Row} (hc : c ∈ rows) :
    t.parentOf c.id (-1) = .ok (some p) := by
  cases hrows.symm.trans (childrenOf_of_mem hp keys true)
  exact (mem_children_iff_parentOf h.rows hp keys c.id).mp (List.mem_map_of_mem hc)

/-! ## Views of children -/

theorem viewChildrenOf_of_mem (hp : p ∈ t.rows) (keys : List SortKey) (mode : Annotate) :
    t.viewChildrenOf keys (some p.id) mode =
      .ok ((t.find (Filter.below p.interval true) keys).map fun c =>
        ExternalNode.ofChild p.id (t.annotated mode c)) := by
  have hview : t.viewChildrenOf keys (some p.id) mode =
      (t.childrenOfAnnotated keys p.id true mode).map
        (·.map (ExternalNode.ofChild p.id)) := rfl
  rw [hview, childrenOfAnnotated_of_mem hp, Except.map, List.map_map]
  rfl

theorem viewChildrenOf_none (t : Table) (keys : List SortKey) (mode : Annotate) :
    t.viewChildrenOf keys none mode =
      t.requireRoot >>= fun root => t.viewChildrenOf keys (some root.id) mode := by
  rw [viewChildrenOf]
  cases t.requireRoot <;> rfl

theorem viewChildrenOf_of_gone {id : NodeId} (h : t.get? id = none) (keys : List SortKey)
    (mode : Annotate) : t.viewChildrenOf keys (some id) mode = .error (.notFound id) := by
  have hview : t.viewChildrenOf keys (some id) mode =
      (t.childrenOfAnnotated keys id true mode).map (·.map (ExternalNode.ofChild id)) := rfl
  rw [hview, childrenOfAnnotated_of_gone h, Except.map]

private theorem referBack (h : t.Draws o) (keys : List SortKey) (mode : Annotate) :
    t.ReferBack keys mode := by
  have hparent (id : NodeId) (views : List ExternalNode)
      (hviews : t.viewChildrenOf keys (some id) mode = .ok views) (v : ExternalNode)
      (hv : v ∈ views) : ∃ (id : NodeId) (p : Row), v.id = some id.val ∧
        t.parentOf id (-1) = .ok (some p) ∧ v.parent = some p.id.val := by
    cases hget : t.get? id with
    | none => cases hviews.symm.trans (viewChildrenOf_of_gone hget keys mode)
    | some p =>
      obtain ⟨hp, rfl⟩ := get?_eq_some_iff.mp hget
      cases hviews.symm.trans (viewChildrenOf_of_mem hp keys mode)
      obtain ⟨c, hc, rfl⟩ := List.mem_map.mp hv
      exact ⟨c.id, p, rfl,
        parentOf_of_mem_children h hp (childrenOf_of_mem hp keys true) hc, rfl⟩
  have hroot (root : Row) (hroot : t.root? = .ok (some root)) :
      t.viewChildrenOf keys none mode = t.viewChildrenOf keys (some root.id) mode := by
    rw [viewChildrenOf_none, requireRoot, hroot]
    rfl
  have hempty (hroot : t.root? = .ok none) :
      t.viewChildrenOf keys none mode = .error .rootMissing := by
    rw [viewChildrenOf_none, requireRoot, hroot]
    rfl
  refine {
    stored := fun r hr => ⟨_, childrenOf_of_mem hr keys true, viewChildrenOf_of_mem hr keys mode⟩
    gone := fun id hid => viewChildrenOf_of_gone hid keys mode
    parent := fun parent views hviews => ?_
    root := hroot
    noRoot := fun hrows => ?_ }
  · cases parent with
    | some id => exact hparent id views hviews
    | none =>
      cases htree : o.tree with
      | none => cases hviews.symm.trans (hempty (by rw [h.root?_eq, htree]; rfl))
      | some tree =>
        rw [hroot tree.rootRow (by rw [h.root?_eq, htree]; rfl)] at hviews
        exact hparent _ views hviews
  · exact hempty (by rw [root?, find, hrows, List.filter_nil, SortKey.sort, List.mergeSort_nil])

end Table

/-! ## Saving -/

namespace Store

variable {s : Store} {o : Outline} {p : Row} {n : ExternalNode}

private theorem saved_of_mem (h : s.table.Draws o) (hp : p ∈ s.table.rows) (n : ExternalNode) :
    s.Saved n p.id (ExternalNode.ofChild p.id (s.table.placeUnder n.attributes p).1.toNode)
      (s.table.placeUnder n.attributes p).2 := by
  obtain ⟨before, earlier, r, hbefore, hafter, hearlier, hr⟩ :=
    Table.exists_lastChild h hp n.attributes
  obtain ⟨p', hp', hid⟩ := Table.exists_mem_placeUnder h hp n.attributes
  have hparent := Table.parentOf_of_mem_children (h.place hp n.attributes) hp' (hid ▸ hafter)
    (List.mem_append_right _ (List.mem_singleton_self r))
  have hnew : r.id = ⟨s.table.nextId⟩ := congrArg Item.id hr
  rw [hnew] at hparent
  exact {
    view := rfl
    parentOf := ⟨p', hparent, hid⟩
    lastChild := ⟨before, earlier, r, hbefore, hafter, hearlier, hr⟩
    insert := ⟨_, insert_of_mem hp n.attributes, rfl⟩ }

/-- A save that comes to an insertion under a stored row. -/
theorem saves_of_unit {ground : Store} (h : ground.table.Draws o) (hp : p ∈ ground.table.rows)
    (hunit : (Work.mk s.table Quota.unlimited).save n =
      ((Work.mk ground.table Quota.unlimited).insertUnder n.attributes (some p.id)).map
        fun a => (ExternalNode.ofChild p.id a.1.toNode, a.2)) : s.Saves ground n p.id := by
  have hinsert : (Work.mk ground.table Quota.unlimited).insertUnder n.attributes (some p.id) =
      (Work.mk ground.table Quota.unlimited).placeUnder n.attributes p := by
    rw [Work.insertUnder, Table.get?_of_mem hp]
  refine ⟨_, _, ?_, saved_of_mem h hp n⟩
  rw [save, change_none, hunit, hinsert, Work.placeUnder_unlimited]
  rfl

theorem save_of_gone {p : Nat} (hget : s.table.get? ⟨p⟩ = none) (hn : n.parent = some p) :
    s.save Faults.none n = (.error (.invalidParent (some ⟨p⟩)), s) := by
  have hunit : (Work.mk s.table Quota.unlimited).save n =
      .error (.invalidParent (some ⟨p⟩)) := by
    rw [Work.save, hn]
    simp only [bind, Except.bind, pure, Except.pure, Work.insertUnder, hget]
    rfl
  rw [save, change_none, hunit]

private theorem saves_of_parent (h : s.table.Draws o) (hp : p ∈ s.table.rows)
    (hn : n.parent = some p.id.val) : s.Saves s n p.id := by
  refine saves_of_unit h hp ?_
  rw [Work.save, hn]
  rfl

private theorem saves_of_root (h : s.table.Draws o) (hp : p ∈ s.table.rows)
    (hroot : s.table.root? = .ok (some p)) (hn : n.parent = none) : s.Saves s n p.id := by
  refine saves_of_unit h hp ?_
  rw [Work.save, hn, Work.rootOrNew, hroot]
  rfl

/-- The store with a first row, which is what a save finds to go under when there was none. -/
theorem insertRoot_of_empty (hroot : s.table.root? = .ok none) (attributes : Attributes) :
    s.insertRoot Faults.none attributes =
      (.ok (s.table.insert attributes Interval.root).1,
        ⟨(s.table.insert attributes Interval.root).2, s.version.next⟩) := by
  have hunit : (Work.mk s.table Quota.unlimited).insertRoot attributes =
      .ok ((s.table.insert attributes Interval.root).1,
        ⟨(s.table.insert attributes Interval.root).2, Quota.unlimited⟩) := by
    rw [Work.insertRoot, hroot]
    rfl
  rw [insertRoot, change_none, hunit]

private theorem saves_of_empty (h : s.table.Draws o) (ho : o.tree = none) (hn : n.parent = none) :
    s.Saves ⟨(s.table.insert Dict.empty Interval.root).2, s.version.next⟩ n ⟨s.table.nextId⟩ := by
  refine saves_of_unit (h.plant ho Dict.empty) (p := (s.table.insert Dict.empty Interval.root).1)
    (Work.mem_rows_insert ..) ?_
  rw [Work.save, hn, Work.rootOrNew, h.root?_eq, ho]
  simp only [Option.map_none, bind, Except.bind, Work.insertRoot, h.root?_eq, ho]
  rfl

/-- A node is saved under the node it refers to, and refused, with nothing changed, if that is not
stored. Without a reference it is saved under the root, after a root without attributes if there is
no row yet. The views of children refer back to their parents. -/
structure SavesLast (s : Store) : Prop where
  refused : ∀ n p, n.parent = some p →
    ((s.save Faults.none n).1 = .error (.invalidParent (some ⟨p⟩)) ↔ s.table.get? ⟨p⟩ = none)
  unchanged : ∀ n p, n.parent = some p → s.table.get? ⟨p⟩ = none → (s.save Faults.none n).2 = s
  underParent : ∀ n p, n.parent = some p → s.table.get? ⟨p⟩ ≠ none → s.Saves s n ⟨p⟩
  underRoot : ∀ n, n.parent = none → s.table.rows ≠ [] →
    ∃ root, s.table.root? = .ok (some root) ∧ s.Saves s n root.id
  underNewRoot : ∀ n, n.parent = none → s.table.rows = [] →
    ∃ root ground, s.insertRoot Faults.none Dict.empty = (.ok root, ground) ∧
      ground.table.rows = [root] ∧ root.attributes = Dict.empty ∧ s.Saves ground n root.id
  views : ∀ keys mode, s.table.ReferBack keys mode

private theorem savesLast (h : s.table.Draws o) : s.SavesLast where
  refused n p hn := by
    cases hget : s.table.get? ⟨p⟩ with
    | none => exact iff_of_true (congrArg Prod.fst (save_of_gone hget hn)) rfl
    | some r =>
      obtain ⟨hr, hid⟩ := Table.get?_eq_some_iff.mp hget
      obtain ⟨view, t', hok, -⟩ := saves_of_parent h hr (n := n) (by rw [hid, hn])
      exact iff_of_false (by simp [hok]) (Option.some_ne_none r)
  unchanged n p hn hget := congrArg Prod.snd (save_of_gone hget hn)
  underParent n p hn hget := by
    obtain ⟨r, hr⟩ := Option.ne_none_iff_exists'.mp hget
    obtain ⟨hr, hid⟩ := Table.get?_eq_some_iff.mp hr
    exact hid ▸ saves_of_parent h hr (by rw [hid, hn])
  underRoot n hn hrows := by
    cases htree : o.tree with
    | none => exact absurd (h.rows_eq_nil_iff.mpr htree) hrows
    | some tree =>
      have hroot : s.table.root? = .ok (some tree.rootRow) := by
        rw [h.root?_eq, htree]
        rfl
      exact ⟨tree.rootRow, hroot, saves_of_root h (Table.rootRow_mem h.rows htree) hroot hn⟩
  underNewRoot n hn hrows := by
    have htree := h.rows_eq_nil_iff.mp hrows
    have hroot : s.table.root? = .ok none := by
      rw [h.root?_eq, htree]
      rfl
    refine ⟨_, _, insertRoot_of_empty hroot Dict.empty, ?_, rfl, saves_of_empty h htree hn⟩
    rw [Table.rows_insert_of_lt fun r hr => h.lt_nextId hr, hrows]
    rfl
  views keys mode := Table.referBack h keys mode

/-- On a sound table, which every table that commands lead to is if its rows pass the check, saving
a node agrees with what the queries find afterwards. -/
theorem save_agrees_with_queries :
    (∀ s : Store, s.table.Sound → s.SavesLast) ∧
    ∀ (first second : Settings) (commands : List (Bool × Session.Command)) (summary : Summary),
      let t := ((Session.start first second).finish commands).store.table
      Numbering.check t.rows = .ok summary → t.Sound := by
  refine ⟨fun s h => ?_, fun first second commands summary =>
    Session.sound_of_check first second commands⟩
  obtain ⟨o, ho⟩ := Table.sound_iff_draws.mp h
  exact savesLast ho

private theorem fst_save_of_saves {ground : Store} {parent : NodeId}
    (h : s.Saves ground n parent) : (s.save Faults.none n).1 =
      .ok ⟨some ground.table.nextId, some parent.val, n.attributes, none, none⟩ := by
  obtain ⟨view, t', hsave, hsaved⟩ := h
  rw [hsave, hsaved.view]

/-- In an empty store a reference to nothing is refused, and a node without one comes second, under
a new root. Among four nodes one goes under a parent that has a child, and one without a reference
under the root. What one command stored passes the check. -/
theorem save_agrees_with_queries_sample :
    let n : ExternalNode := ⟨some 40, none, Dict.ofList [("name", .string "a")], none, none⟩
    let four : Store := ⟨Table.fourNodes, ⟨4⟩⟩
    let t := ((Session.start .default .default).finish
      [(false, .insertRoot Dict.empty)]).store.table
    Store.empty.table.Sound ∧
      (Store.empty.save Faults.none { n with parent := some 7 }).1 =
        .error (.invalidParent (some ⟨7⟩)) ∧
      (Store.empty.save Faults.none n).1 = .ok { n with id := some 2, parent := some 1 } ∧
      (∃ root ground, Store.empty.insertRoot Faults.none Dict.empty = (.ok root, ground) ∧
        root.id = ⟨1⟩ ∧ Store.empty.Saves ground n root.id) ∧
      four.table.Sound ∧ four.Saves four { n with parent := some 2 } ⟨2⟩ ∧
      (four.save Faults.none { n with parent := some 2 }).1 =
        .ok { n with id := some 5, parent := some 2 } ∧
      four.Saves four n ⟨1⟩ ∧
      (four.save Faults.none n).1 = .ok { n with id := some 5, parent := some 1 } ∧
      four.table.ReferBack [] .both ∧
      Numbering.check t.rows = .ok ⟨1, 1, 0⟩ ∧ t.Sound := by
  intro n four t
  have hsound : Store.empty.table.Sound := Table.sound_iff_draws.mpr ⟨_, Table.Draws.empty⟩
  have hroot : Store.empty.table.root? = .ok none := Table.Draws.empty.root?_eq
  have hsaves := save_agrees_with_queries.1 Store.empty hsound
  obtain ⟨root, ground, hok, -, -, hnew⟩ := hsaves.underNewRoot n rfl rfl
  obtain ⟨rfl, rfl⟩ : _ = root ∧ _ = ground := by
    simpa using (insertRoot_of_empty hroot Dict.empty).symm.trans hok
  have hfour := save_agrees_with_queries.1 four Table.sound_fourNodes
  have hunder := hfour.underParent { n with parent := some 2 } 2 rfl (by decide)
  obtain ⟨top, htop, htopSaves⟩ := hfour.underRoot n rfl (by decide)
  obtain rfl : top = ⟨⟨1⟩, ⟨1, 8, 0⟩, Dict.empty⟩ := by
    have hfind : four.table.find Filter.root [] = [⟨⟨1⟩, ⟨1, 8, 0⟩, Dict.empty⟩] := by
      decide +kernel
    rw [Table.root?, hfind] at htop
    cases htop
    rfl
  exact ⟨hsound, (hsaves.refused { n with parent := some 7 } 7 rfl).mpr rfl, fst_save_of_saves hnew,
    ⟨_, _, hok, rfl, hnew⟩, Table.sound_fourNodes, hunder, fst_save_of_saves hunder, htopSaves,
    fst_save_of_saves htopSaves, hfour.views [] .both, Table.check_loneRoot,
    save_agrees_with_queries.2 .default .default [(false, .insertRoot Dict.empty)] _
      Table.check_loneRoot⟩

end Store
end FlatTree
