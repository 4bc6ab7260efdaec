import FlatTree.Hierarchy.Query
import FlatTree.Proofs.Check
import FlatTree.Proofs.Outline

/-!
# Tables as drawings of trees

A table draws an outline if its rows are the numbered nodes of the tree, in whatever order, and no
identity is taken that is still to be given out. Such are exactly the tables whose rows pass the
check. Here is what the tables do that the changes pass through: finding a node and the root,
opening a gap and closing one.
-/

namespace FlatTree

/-- What the check reports of a tree, or of none. -/
def Outline.summary (o : Outline) : Summary :=
  match o.tree with
  | none => ⟨0, 0, 0⟩
  | some t => t.summary

namespace Table

/-- The rows pass the check, and identities are given out in ascending order. -/
def Sound (t : Table) : Prop :=
  (∃ s, Numbering.check t.rows = .ok s) ∧ ∀ r ∈ t.rows, r.id.val < t.nextId

structure Draws (t : Table) (o : Outline) : Prop where
  rows : t.rows.Perm o.rows
  nextId : t.nextId = o.nextId
  fresh : ∀ id ∈ o.ids, id.val < o.nextId

/-- Both bounds of every row moved. -/
def applyShift (t : Table) (s : Shift) : Table :=
  (t.shift .left s).shift .right s

/-- A new last child for a row: a gap is opened, and the next row stored in it. -/
def placeUnder (t : Table) (attributes : Attributes) (parent : Row) : Row × Table :=
  (t.applyShift (Shift.opening parent.interval.lastChild.left)).insert attributes
    parent.interval.lastChild

/-- What stands between the bounds of a row taken out, and the gap closed. -/
def takeOut (t : Table) (r : Row) : Table :=
  (t.delete (Filter.within r.interval.left r.interval.right)).applyShift
    ⟨r.interval.left, -r.interval.span⟩

/-! ## Rows and identities -/

theorem nodup_ids (t : Table) : (t.rows.map (·.id)).Nodup :=
  List.pairwise_map.mpr (t.ascending.imp fun h he => Nat.ne_of_lt h (congrArg NodeId.val he))

theorem get?_eq_some_iff {t : Table} {id : NodeId} {r : Row} :
    t.get? id = some r ↔ r ∈ t.rows ∧ r.id = id := by
  constructor
  · intro h
    exact ⟨List.mem_of_find?_eq_some h, id_of_get? h⟩
  · rintro ⟨h, rfl⟩
    exact get?_of_mem h

theorem get?_eq_none_iff {t : Table} {id : NodeId} :
    t.get? id = none ↔ id ∉ t.rows.map (·.id) := by
  simp [get?, List.find?_eq_none]

theorem require_eq_ok_iff {t : Table} {id : NodeId} {r : Row} :
    t.require id = .ok r ↔ r ∈ t.rows ∧ r.id = id := by
  rw [require, ← get?_eq_some_iff]
  cases t.get? id <;> simp

/-- What a filter finds are the nodes of the tree that it accepts. -/
theorem find_perm {t : Table} {o : Outline} (h : t.rows.Perm o.rows) (f : Filter)
    (keys : List SortKey) : (t.find f keys).Perm (o.rows.filter (f.accepts ·.interval)) :=
  (List.mergeSort_perm _ _).trans (h.filter _)

theorem nodup_of_perm {t : Table} {o : Outline} (h : t.rows.Perm o.rows) : o.ids.Nodup := by
  rw [← Outline.map_id_rows]
  exact (h.map _).nodup_iff.mp t.nodup_ids

theorem mem_tour_of_perm {t : Table} {o : Outline} {r : Row} (h : t.rows.Perm o.rows)
    (hr : r ∈ t.rows) : (r.item, r.interval) ∈ o.grove.tour 0 1 :=
  Outline.mem_rows.mp (h.subset hr)

/-- There is one row at most in the place of a root, and it is the root of the tree. -/
theorem exists_subtree_of_perm {t : Table} {o : Outline} {r : Row} (h : t.rows.Perm o.rows)
    (hr : r ∈ t.rows) : ∃ below, o.grove.subtree? r.id = some ⟨r.item, below⟩ ∧
      r.interval.right = r.interval.left + 1 + 2 * below.size :=
  Grove.subtree?_of_mem_tour (nodup_of_perm h) (mem_tour_of_perm h hr)

theorem root?_of_perm {t : Table} {o : Outline} (h : t.rows.Perm o.rows) :
    t.root? = .ok (o.tree.map Tree.rootRow) := by
  have hfind := find_perm h Filter.root []
  cases ho : o.tree with
  | none =>
    have hrows : o.rows = [] := by simp [Outline.rows, Outline.grove, ho, Grove.tour]
    rw [hrows, List.filter_nil, List.perm_nil] at hfind
    simp [Table.root?, hfind]
  | some tree =>
    have hrows : o.rows = tree.rootRow :: (tree.below.tour 1 2).map fun e => e.1.row e.2 := by
      simp only [Outline.rows, Outline.grove, ho]
      exact congrArg (List.map _) tree.tour_eq
    have hbelow : ((tree.below.tour 1 2).map fun e => e.1.row e.2).filter
        (fun r => Filter.root.accepts r.interval) = [] := by
      apply List.filter_eq_nil_iff.mpr
      intro r hr hroot
      obtain ⟨e, he, rfl⟩ := List.mem_map.mp hr
      have := (Grove.bounds_of_mem_tour he).1
      simp only [Filter.root, Filter.accepts, Comparison.holds, Item.row, Bool.and_true,
        beq_iff_eq] at hroot
      omega
    have hroot : Filter.root.accepts tree.rootRow.interval = true := rfl
    rw [hrows, List.filter_cons, if_pos hroot, hbelow, List.perm_singleton] at hfind
    simp [Table.root?, hfind]

theorem rootRow_mem {t : Table} {o : Outline} {tree : Tree Item} (h : t.rows.Perm o.rows)
    (ho : o.tree = some tree) : tree.rootRow ∈ t.rows := by
  refine h.symm.subset (Outline.mem_rows.mpr ?_)
  simp only [Outline.grove, ho]
  exact List.mem_cons_self

theorem requireRoot_of_perm {t : Table} {o : Outline} {tree : Tree Item} (h : t.rows.Perm o.rows)
    (ho : o.tree = some tree) : t.requireRoot = .ok tree.rootRow := by
  rw [requireRoot, root?_of_perm h, ho]
  rfl

/-- Rows that pass the check are the numbered nodes of a tree, if there are any. -/
theorem exists_outline_of_check {t : Table} {s : Summary} (h : Numbering.check t.rows = .ok s)
    (nextId : Nat) : ∃ o : Outline, t.rows.Perm o.rows ∧ o.nextId = nextId := by
  by_cases hne : t.rows = []
  · exact ⟨⟨none, nextId⟩, by simp [hne, Outline.rows, Outline.grove, Grove.tour], rfl⟩
  · obtain ⟨tree, hperm, -⟩ := Numbering.exists_tree_of_check h hne Row.item
    refine ⟨⟨some tree, nextId⟩, ?_, rfl⟩
    have hmap := hperm.map fun e => e.1.row e.2
    rwa [List.map_map, show ((fun e : Item × Interval => e.1.row e.2) ∘ fun r : Row =>
      (r.item, r.interval)) = id from rfl, List.map_id] at hmap

/-- Numbered nodes pass the check in whatever order. -/
theorem check_of_perm {rows : List Row} {o : Outline} (h : rows.Perm o.rows) :
    Numbering.check rows = .ok o.summary := by
  obtain ⟨_ | tree, n⟩ := o
  · obtain rfl : rows = [] := List.perm_nil.mp h
    exact Numbering.check_nil
  · have hintervals := h.map (·.interval)
    rw [Outline.rows, List.map_map] at hintervals
    exact Numbering.check_of_perm_intervals hintervals

theorem verify_of_perm {t : Table} {o : Outline} (h : t.rows.Perm o.rows) :
    t.verify = .ok o.summary := by
  have hsnapshot : t.snapshot.Perm t.rows :=
    (List.mergeSort_perm _ _).trans (by simp [Filter.all, Filter.accepts, Comparison.holds])
  rw [verify, check_of_perm (hsnapshot.trans h)]

/-- Moving one bound and then the other is moving the interval. -/
theorem rows_applyShift (t : Table) (s : Shift) :
    (t.applyShift s).rows = t.rows.map fun r => { r with interval := s.apply r.interval } := by
  simp only [applyShift, shift, List.map_map]
  rfl

theorem putRow_of_lt {r : Row} {rows : List Row} (h : ∀ o ∈ rows, o.id.val < r.id.val) :
    putRow r rows = rows ++ [r] := by
  induction rows with
  | nil => rfl
  | cons o rows ih =>
    obtain ⟨ho, h⟩ := List.forall_mem_cons.mp h
    simp only [putRow, Nat.not_lt_of_lt ho, if_false, Nat.ne_of_gt ho, ih h, List.cons_append]

theorem rows_insert_of_lt {t : Table} (h : ∀ r ∈ t.rows, r.id.val < t.nextId)
    (attributes : Attributes) (i : Interval) :
    (t.insert attributes i).2.rows = t.rows ++ [(t.insert attributes i).1] :=
  putRow_of_lt h

namespace Draws

variable {t : Table} {o : Outline} {r : Row}

theorem ids (h : t.Draws o) : (t.rows.map (·.id)).Perm o.ids :=
  o.map_id_rows ▸ h.rows.map _

theorem nodup (h : t.Draws o) : o.ids.Nodup :=
  nodup_of_perm h.rows

theorem mem (h : t.Draws o) (hr : r ∈ t.rows) : (r.item, r.interval) ∈ o.grove.tour 0 1 :=
  mem_tour_of_perm h.rows hr

theorem id_mem (h : t.Draws o) (hr : r ∈ t.rows) : r.id ∈ o.ids :=
  h.ids.subset (List.mem_map_of_mem hr)

theorem lt_nextId (h : t.Draws o) (hr : r ∈ t.rows) : r.id.val < t.nextId :=
  h.nextId ▸ h.fresh r.id (h.id_mem hr)

theorem get?_eq_none_iff (h : t.Draws o) {id : NodeId} : t.get? id = none ↔ id ∉ o.ids := by
  rw [Table.get?_eq_none_iff, h.ids.mem_iff]

theorem exists_of_mem (h : t.Draws o) {id : NodeId} (hid : id ∈ o.ids) :
    ∃ r, t.get? id = some r :=
  Option.ne_none_iff_exists'.mp fun hn => h.get?_eq_none_iff.mp hn hid

theorem subtree? (h : t.Draws o) (hr : r ∈ t.rows) :
    ∃ below, o.grove.subtree? r.id = some ⟨r.item, below⟩ ∧
      r.interval.right = r.interval.left + 1 + 2 * below.size :=
  exists_subtree_of_perm h.rows hr

theorem root?_eq (h : t.Draws o) : t.root? = .ok (o.tree.map Tree.rootRow) :=
  root?_of_perm h.rows

theorem empty : Table.empty.Draws Outline.empty :=
  ⟨List.Perm.refl _, rfl, by simp [Outline.ids, Outline.grove, Outline.empty]⟩

/-- A first row, in the place of a root. -/
theorem plant (h : t.Draws o) (ho : o.tree = none) (attributes : Attributes) :
    (t.insert attributes Interval.root).2.Draws (o.plant attributes) := by
  have hrows : t.rows = [] := by
    have := h.rows
    rwa [Outline.rows, Outline.grove, ho, Grove.tour, List.map_nil, List.perm_nil] at this
  refine ⟨?_, congrArg (· + 1) h.nextId, ?_⟩
  · rw [rows_insert_of_lt (by simp [hrows]), hrows, Outline.rows, Outline.grove_plant]
    simp [Table.insert, Grove.tour, Grove.stop, Item.row, Outline.fresh, h.nextId, Interval.root]
  · rw [Outline.ids, Outline.grove_plant]
    simp [Grove.ids, Grove.items, Outline.fresh, Outline.plant]

/-- A gap opened at the right bound of a row, and filled. -/
theorem place (h : t.Draws o) (hr : r ∈ t.rows) (attributes : Attributes) :
    (t.placeUnder attributes r).2.Draws (o.place attributes r.id) := by
  have hid := h.id_mem hr
  have hlt : ∀ s ∈ (t.applyShift (Shift.opening r.interval.lastChild.left)).rows,
      s.id.val < (t.applyShift (Shift.opening r.interval.lastChild.left)).nextId := by
    intro s hs
    rw [rows_applyShift] at hs
    obtain ⟨s', hs', rfl⟩ := List.mem_map.mp hs
    have hlt := h.lt_nextId hs'
    exact hlt
  refine ⟨?_, congrArg (· + 1) h.nextId, ?_⟩
  · have htour := (Grove.tour_insertUnder_perm h.nodup (h.mem hr) (o.fresh attributes)).map
      fun e => e.1.row e.2
    rw [List.map_cons, List.map_map] at htour
    rw [placeUnder, rows_insert_of_lt hlt, rows_applyShift, Outline.rows, Outline.grove_place]
    have hshift := h.rows.map fun s =>
      { s with interval := (Shift.opening r.interval.lastChild.left).apply s.interval }
    rw [Outline.rows, List.map_map] at hshift
    refine ((hshift.append_right _).trans (List.perm_append_singleton _ _)).trans ?_
    refine List.Perm.trans ?_ htour.symm
    rw [Table.insert, Outline.fresh, ← h.nextId]
    exact List.Perm.refl _
  · intro id hmem
    have hperm := (Grove.items_insertUnder_perm h.nodup hid (o.fresh attributes)).map (·.id)
    rw [Outline.ids, Outline.grove_place] at hmem
    rcases List.mem_cons.mp (hperm.subset hmem) with rfl | hmem
    · exact Nat.lt_succ_self _
    · exact Nat.lt_succ_of_lt (h.fresh id hmem)

/-- A range taken out and closed. -/
theorem remove (h : t.Draws o) (hr : r ∈ t.rows) : (t.takeOut r).Draws (o.remove r.id) := by
  refine ⟨?_, h.nextId, ?_⟩
  · have htour : (o.grove.remove r.id).tour 0 1 = _ := Grove.tour_remove h.nodup (h.mem hr)
    rw [takeOut, rows_applyShift, Outline.rows, Outline.grove_remove, htour, List.map_map]
    have hfilter := (h.rows.filter fun s =>
      !(Filter.within r.interval.left r.interval.right).accepts s.interval).map fun s =>
        { s with interval := (Shift.mk r.interval.left (-r.interval.span)).apply s.interval }
    rw [Outline.rows, List.filter_map, List.map_map] at hfilter
    exact hfilter
  · intro id hmem
    rw [Outline.ids, Outline.grove_remove] at hmem
    exact h.fresh id ((Grove.items_remove_sublist o.grove r.id).map _ |>.subset hmem)

/-- As many rows stand between the bounds of a node as it has nodes below it, and one more. -/
theorem count_within (h : t.Draws o) (hr : r ∈ t.rows) {tree : Tree Item}
    (hsub : o.grove.subtree? r.id = some tree) :
    t.count (Filter.within r.interval.left r.interval.right) = tree.below.size + 1 := by
  have hsize := Grove.size_remove h.nodup hsub
  have hrest := (h.remove hr).rows.length_eq
  have hall := h.rows.length_eq
  have hsplit := List.length_eq_countP_add_countP
    (fun s : Row => (Filter.within r.interval.left r.interval.right).accepts s.interval)
    (l := t.rows)
  rw [Outline.length_rows] at hrest hall
  rw [Outline.grove_remove, takeOut, rows_applyShift, List.length_map, Table.delete,
    ← List.countP_eq_length_filter] at hrest
  simp only [← Bool.not_eq_true', Bool.not_eq_true, Bool.decide_eq_true] at hsplit
  rw [Table.count]
  omega

end Draws

/-! ## Soundness -/

/-- The tables whose rows pass the check are those that draw a tree or nothing. -/
theorem sound_iff_draws {t : Table} : t.Sound ↔ ∃ o, t.Draws o := by
  constructor
  · rintro ⟨⟨s, hs⟩, hlt⟩
    obtain ⟨o, hrows, hnext⟩ := exists_outline_of_check hs t.nextId
    refine ⟨o, hrows, hnext.symm, fun id hid => ?_⟩
    rw [← Outline.map_id_rows] at hid
    obtain ⟨r, hr, rfl⟩ := List.mem_map.mp hid
    exact hnext ▸ hlt r (hrows.symm.subset hr)
  · rintro ⟨o, h⟩
    exact ⟨⟨_, check_of_perm h.rows⟩, fun r hr => h.lt_nextId hr⟩

end Table

end FlatTree
