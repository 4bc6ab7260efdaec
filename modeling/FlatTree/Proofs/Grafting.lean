import FlatTree.Proofs.Simulation
import FlatTree.Proofs.Traversal

/-!
# What an import builds

Under the lenient policy an import into a sound table succeeds. It stores what it comes to and
leaves out the rest; every node it stores belongs under the target or under the node its reference
was noted for, after the children that are there, and in the order of the forest.
-/

namespace FlatTree

/-- The nodes of a forest that were not left out, with their positions. -/
def ImportReport.stored (report : ImportReport) (forest : Forest) : List (ExternalNode × Nat) :=
  forest.zipIdx.filter (·.2 ∉ report.dropped)

namespace Import

/-- The node stored for a position. -/
def copy (place : Nat → NodeId) (e : ExternalNode × Nat) : Item :=
  ⟨place e.2, e.1.attributes⟩

/-- A forest was brought in under a node: `before` has become `after`, and the position `i` of the
forest is now the node `place i`. What was left out is what the import does not come to. What was
stored has the next identities, and stands behind the children that its home had, in the order of
the forest; the nodes from before stand where they stood. -/
structure Grafted (sentinel : Option Nat) (forest : Forest) (target : NodeId)
    (before after : Outline) (report : ImportReport) (place : Nat → NodeId) : Prop where
  dropped : ∀ i, i ∈ report.dropped ↔ i < forest.length ∧ ¬Reached sentinel forest i
  ascending : report.dropped.Pairwise (· < ·)
  inserted : report.inserted + report.dropped.length = forest.length
  nextId : after.nextId = before.nextId + report.inserted
  fresh : ((report.stored forest).map (place ·.2)).Perm
    ((List.range report.inserted).map fun k => ⟨before.nextId + k⟩)
  items : after.grove.items.Perm
    (before.grove.items ++ (report.stored forest).map (copy place))
  homes : ∀ e ∈ report.stored forest,
    ∃ m ∈ after.ids, home? sentinel target report.idMap e.1 = some m
  children : ∀ m, after.grove.childrenOf m = before.grove.childrenOf m ++
    ((report.stored forest).filter fun e =>
      home? sentinel target report.idMap e.1 = some m).map (copy place)
  idMap : ∀ q, (∃ id, report.idMap.get? q = some id) ↔
    ∃ e ∈ report.stored forest, e.1.id = some q
  noted : ∀ q id, report.idMap.get? q = some id →
    ∃ e ∈ report.stored forest, e.1.id = some q ∧ place e.2 = id
  order : before.grove.items.Sublist after.grove.items
  root : after.tree.map (·.root) = before.tree.map (·.root)
  kept : ∀ r ∈ before.rows, ∃ r' ∈ after.rows,
    r'.item = r.item ∧ r'.interval.depth = r.interval.depth

/-- The identity that the node of a position got, if the log has it. -/
def placeIn (log : List Placement) (i : Nat) : NodeId :=
  ((log.find? (·.entry.2 = i)).map (·.id)).getD ⟨0⟩

theorem placeIn_of_mem {log : List Placement} (h : (log.map (·.entry.2)).Nodup) {e : Placement}
    (he : e ∈ log) : placeIn log e.entry.2 = e.id := by
  rw [placeIn]
  cases hfind : log.find? (·.entry.2 = e.entry.2) with
  | none => simpa using List.find?_eq_none.mp hfind e he
  | some e' =>
    have hpos : e'.entry.2 = e.entry.2 := by simpa using List.find?_some hfind
    rw [List.inj_on_of_nodup_map h (List.mem_of_find?_eq_some hfind) he hpos]
    rfl

namespace Sofar

variable {sentinel : Option Nat} {forest : Forest} {target : NodeId} {before now : Outline}
  {log : List Placement} {p : Progress}

/-- At the end the positions in the log are those the import comes to. -/
theorem mem_log_iff_reached (h : Sofar sentinel forest target before log now p []) {i : Nat} :
    i ∈ log.map (·.entry.2) ↔ Reached sentinel forest i := by
  constructor
  · intro hi
    obtain ⟨e, he, rfl⟩ := List.mem_map.mp hi
    exact h.reached e he
  · intro hi
    induction hi with
    | @top i n hget htop =>
      have hzip : (n, i) ∈ forest.zipIdx := List.mem_zipIdx_iff_getElem?.mpr hget
      have hsome : (home? sentinel target p.idMap n).isSome = true := by
        rw [home?, if_pos htop]
        rfl
      simpa using (h.isSome_home?_iff hzip).mp hsome
    | @under i j q n m _ hm hq hget htop hparent ih =>
      have hzip : (n, i) ∈ forest.zipIdx := List.mem_zipIdx_iff_getElem?.mpr hget
      obtain ⟨e, he, hpos⟩ := List.mem_map.mp ih
      have hentry : e.entry = (m, j) := by
        refine eq_of_mem_zipIdx (mem_family.mp (h.mem_family_of_mem_log he)).1 ?_ hpos
        exact List.mem_zipIdx_iff_getElem?.mpr hm
      have hsome : (home? sentinel target p.idMap n).isSome = true := by
        rw [home?, if_neg (by simp [htop]), hparent, Option.bind_some, h.idMap, Option.isSome_map,
          List.find?_isSome]
        exact ⟨e, he, by simp [hentry, hq]⟩
      simpa using (h.isSome_home?_iff hzip).mp hsome

/-- The log holds the nodes that were not left out. -/
theorem map_entry_perm (h : Sofar sentinel forest target before log now p queue) :
    (log.map (·.entry)).Perm (forest.zipIdx.filter (·.2 ∉ p.waiting)) := by
  have hlog : (log.map (·.entry)).Nodup := by
    have hnodup := h.nodup
    rw [show (fun e : Placement => e.entry.2) = Prod.snd ∘ Placement.entry from rfl,
      ← List.map_map] at hnodup
    exact hnodup.of_map
  apply (List.perm_ext_iff_of_nodup hlog (nodup_positions forest _).of_map).mpr
  intro e
  rw [List.mem_filter, decide_eq_true_eq]
  constructor
  · intro he
    obtain ⟨a, ha, rfl⟩ := List.mem_map.mp he
    refine ⟨(mem_family.mp (h.mem_family_of_mem_log ha)).1, fun hwait => ?_⟩
    exact (h.mem_waiting_iff.mp hwait).2 (List.mem_map_of_mem ha)
  · rintro ⟨hzip, hwait⟩
    have hlt := (List.getElem?_eq_some_iff.mp (List.mem_zipIdx_iff_getElem?.mp hzip)).1
    have hmem : e.2 ∈ log.map (·.entry.2) := by
      by_contra hnot
      exact hwait (h.mem_waiting_iff.mpr ⟨hlt, hnot⟩)
    obtain ⟨a, ha, hpos⟩ := List.mem_map.mp hmem
    have hentry := eq_of_mem_zipIdx (mem_family.mp (h.mem_family_of_mem_log ha)).1 hzip hpos
    exact hentry ▸ List.mem_map_of_mem ha

private theorem map_item_eq (h : Sofar sentinel forest target before log now p queue)
    {es : List Placement} (hes : ∀ e ∈ es, e ∈ log) :
    es.map Placement.item = (es.map (·.entry)).map (copy (placeIn log)) := by
  rw [List.map_map]
  apply List.map_congr_left
  intro e he
  rw [Function.comp_apply, copy, placeIn_of_mem h.nodup (hes e he)]
  rfl

private theorem notMem_waiting_iff (h : Sofar sentinel forest target before log now p [])
    {e : ExternalNode × Nat} (he : e ∈ forest.zipIdx) :
    e.2 ∉ p.waiting ↔ (home? sentinel target p.idMap e.1).isSome = true := by
  have hlt := (List.getElem?_eq_some_iff.mp (List.mem_zipIdx_iff_getElem?.mp he)).1
  rw [h.isSome_home?_iff he, h.mem_waiting_iff]
  simp [hlt]

/-- What was left out and what was stored make up the forest. -/
theorem inserted_add_waiting (h : Sofar sentinel forest target before log now p queue) :
    p.inserted + p.waiting.length = forest.length := by
  have hseen : ((List.range forest.length).filter (· ∈ log.map (·.entry.2))).Perm
      (log.map (·.entry.2)) := by
    apply (List.perm_ext_iff_of_nodup (List.nodup_range.filter _) h.nodup).mpr
    intro i
    rw [List.mem_filter, List.mem_range, decide_eq_true_eq]
    refine ⟨And.right, fun hi => ⟨?_, hi⟩⟩
    obtain ⟨e, he, rfl⟩ := List.mem_map.mp hi
    have hzip := (mem_family.mp (h.mem_family_of_mem_log he)).1
    exact (List.getElem?_eq_some_iff.mp (List.mem_zipIdx_iff_getElem?.mp hzip)).1
  have hsplit := List.length_eq_length_filter_add (l := List.range forest.length)
    fun i => decide (i ∈ log.map (·.entry.2))
  rw [List.length_range, hseen.length_eq, List.length_map] at hsplit
  simp only [h.inserted, h.waiting, decide_not]
  exact hsplit.symm

/-- What a traversal that is at its end has built. -/
theorem grafted (h : Sofar sentinel forest target before log now p []) :
    Grafted sentinel forest target before now ⟨p.inserted, p.idMap, p.waiting⟩ (placeIn log) where
  dropped := fun i => by rw [h.mem_waiting_iff, h.mem_log_iff_reached]
  ascending := by
    rw [h.waiting]
    exact List.pairwise_lt_range.filter _
  inserted := h.inserted_add_waiting
  nextId := by rw [h.grown.nextId, h.inserted]
  fresh := by
    have hids : (log.map (·.entry)).map (placeIn log ·.2) = log.map (·.id) := by
      rw [List.map_map]
      exact List.map_congr_left fun e he => placeIn_of_mem h.nodup he
    rw [h.inserted, ← h.grown.ids, ← hids]
    exact (h.map_entry_perm.map _).symm
  items := by
    refine h.grown.items.trans (List.Perm.append_left _ ?_)
    rw [h.map_item_eq fun _ he => he]
    exact h.map_entry_perm.map _
  homes := by
    intro e he
    obtain ⟨hzip, hwait⟩ := List.mem_filter.mp he
    obtain ⟨m, hm⟩ := Option.isSome_iff_exists.mp
      ((h.notMem_waiting_iff hzip).mp (of_decide_eq_true hwait))
    exact ⟨m, h.home_mem hm, hm⟩
  children := by
    intro m
    have hfamily : (log.filter (·.parent = m)).map (·.entry) =
        family sentinel forest target p.idMap m := by
      rw [← h.families m, due, List.filter_nil, List.map_nil, List.append_nil]
    rw [h.grown.children m, h.map_item_eq fun _ he => List.mem_of_mem_filter he, hfamily, family,
      ImportReport.stored, List.filter_filter]
    refine congrArg (before.grove.childrenOf m ++ List.map _ ·) (List.filter_congr fun e he => ?_)
    have hiff := h.notMem_waiting_iff he
    by_cases hm : home? sentinel target p.idMap e.1 = some m
    · simp [hm, hiff]
    · simp [hm]
  idMap := by
    intro q
    simp only [h.idMap, Option.map_eq_some_iff]
    constructor
    · rintro ⟨_, e, he, rfl⟩
      refine ⟨e.entry, ?_, by simpa using List.find?_some he⟩
      exact h.map_entry_perm.subset (List.mem_map_of_mem (List.mem_of_find?_eq_some he))
    · rintro ⟨e, he, hq⟩
      obtain ⟨a, ha, rfl⟩ := List.mem_map.mp (h.map_entry_perm.symm.subset he)
      have hsome : (log.find? (·.entry.1.id = some q)).isSome = true :=
        List.find?_isSome.mpr ⟨a, ha, by simpa using hq⟩
      obtain ⟨b, hb⟩ := Option.isSome_iff_exists.mp hsome
      exact ⟨b.id, b, hb, rfl⟩
  noted := by
    intro q id hid
    obtain ⟨e, he, rfl⟩ := Option.map_eq_some_iff.mp ((h.idMap q).symm.trans hid)
    have hmem := List.mem_of_find?_eq_some he
    refine ⟨e.entry, ?_, by simpa using List.find?_some he, placeIn_of_mem h.nodup hmem⟩
    exact h.map_entry_perm.subset (List.mem_map_of_mem hmem)
  order := h.grown.order
  root := h.grown.root
  kept := h.grown.kept

end Sofar

end Import

/-- An import of which nothing is refused works through its whole queue, and what the traversal
keeps holds at the end if it holds at the start. -/
theorem Work.exists_sofar_of {w : Work} {o : Outline} (h : w.table.Draws o)
    (hq : w.quota = Quota.unlimited) {target : NodeId} (htarget : target ∈ o.ids)
    {sentinel : Option Nat} {forest : Forest}
    {inv : List Placement → Outline → List ((ExternalNode × Nat) × NodeId) → Prop}
    (hkept : Import.Kept sentinel forest inv)
    (hinv : inv [] o ((Import.topNodes sentinel forest).map (·, target))) :
    ∃ log now p, Import.Sofar sentinel forest target o log now p [] ∧ inv log now [] ∧
      w.importForest ⟨sentinel, .drop⟩ forest target =
        .ok (⟨p.inserted, p.idMap, p.waiting⟩, p.work) := by
  obtain ⟨log, now, p, hrun, hend, hinv⟩ :=
    Import.exists_run hkept (Import.sofar_start sentinel forest h hq htarget) hinv
  obtain ⟨r, hr⟩ := h.exists_of_mem htarget
  refine ⟨log, now, p, hend, hinv, ?_⟩
  simp [importForest, hr, hrun]

theorem Work.exists_sofar {w : Work} {o : Outline} (h : w.table.Draws o)
    (hq : w.quota = Quota.unlimited) {target : NodeId} (htarget : target ∈ o.ids)
    (sentinel : Option Nat) (forest : Forest) :
    ∃ log now p, Import.Sofar sentinel forest target o log now p [] ∧
      w.importForest ⟨sentinel, .drop⟩ forest target =
        .ok (⟨p.inserted, p.idMap, p.waiting⟩, p.work) := by
  have hkept : Import.Kept sentinel forest fun _ _ _ => True := ⟨id, id⟩
  obtain ⟨log, now, p, hend, -, himport⟩ := exists_sofar_of h hq htarget hkept trivial
  exact ⟨log, now, p, hend, himport⟩

namespace Store

/-- An import under the lenient policy, under a node that is there, succeeds, and grafts the forest
onto the tree. -/
theorem importForest_grafts {s : Store} (h : s.table.Sound) {target : NodeId} {r : Row}
    (hr : s.table.get? target = some r) (sentinel : Option Nat) (forest : Forest) :
    ∃ report before after place,
      (s.importForest Faults.none ⟨sentinel, .drop⟩ forest target).1 = .ok report ∧
        s.table.Draws before ∧
        (s.importForest Faults.none ⟨sentinel, .drop⟩ forest target).2.table.Draws after ∧
        Import.Grafted sentinel forest target before after report place := by
  obtain ⟨o, ho⟩ := Table.sound_iff_draws.mp h
  obtain ⟨hmem, rfl⟩ := Table.get?_eq_some_iff.mp hr
  obtain ⟨log, now, p, hend, himport⟩ := Work.exists_sofar (w := ⟨s.table, Quota.unlimited⟩) ho rfl
    (ho.id_mem hmem) sentinel forest
  have hchange : s.importForest Faults.none ⟨sentinel, .drop⟩ forest r.id =
      (.ok ⟨p.inserted, p.idMap, p.waiting⟩, ⟨p.work.table, s.version.next⟩) := by
    rw [importForest, change_none, himport]
  rw [hchange]
  exact ⟨_, o, now, _, rfl, ho, hend.draws, hend.grafted⟩

/-- Onto a lone root: an identity that repeats, a node that refers to it before it comes up, and
two nodes that refer to each other. -/
theorem importForest_grafts_lone_root :
    let s : Store := ⟨(Table.empty.insert Dict.empty Interval.root).2, ⟨1⟩⟩
    let forest : Forest := [.bare (some 6) (some 5), .bare (some 5) none, .bare (some 5) (some 0),
      .bare (some 7) (some 8), .bare (some 8) (some 7)]
    let done := s.importForest Faults.none ⟨some 0, .drop⟩ forest ⟨1⟩
    s.table.Sound ∧ s.table.get? ⟨1⟩ = some ⟨⟨1⟩, Interval.root, Dict.empty⟩ ∧
      ∃ report before after place, done.1 = .ok report ∧ s.table.Draws before ∧
        done.2.table.Draws after ∧
          Import.Grafted (some 0) forest ⟨1⟩ before after report place := by
  intro s forest done
  have hsound : s.table.Sound :=
    Table.sound_iff_draws.mpr ⟨_, Table.Draws.empty.plant rfl Dict.empty⟩
  have hroot : s.table.get? ⟨1⟩ = some ⟨⟨1⟩, Interval.root, Dict.empty⟩ := rfl
  exact ⟨hsound, hroot, importForest_grafts hsound hroot (some 0) forest⟩

end Store

end FlatTree
