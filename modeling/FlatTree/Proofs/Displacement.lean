import FlatTree.Proofs.Lifetimes
import Mathlib.Data.List.Pairwise

/-!
# Where changes move the rows

An insertion opens a gap and a deletion closes one. Both move every bound from some number on by one
distance, the left bounds in one pass and the right bounds in another, and neither pass knows of a
tree. What this comes to is told by the tree: the nodes above the place of the change are stretched
or shrunk, what begins behind it is carried along, and all others stay where they are.
-/

namespace FlatTree

/-- A row with both bounds shifted. -/
def Row.moved (s : Shift) (r : Row) : Row :=
  { r with interval := s.apply r.interval }

/-- What a shift makes of rows, told by a place that ends at `right` and by the nodes around it:
these are stretched, what begins behind the place is carried along, and all others are kept. -/
structure Shift.Splits (s : Shift) (rows : List Row) (around : List NodeId) (right : Int) :
    Prop where
  stretched : ∀ r ∈ rows, r.id ∈ around →
    s.apply r.interval = { r.interval with right := r.interval.right + s.delta }
  carried : ∀ r ∈ rows, right < r.interval.left → s.apply r.interval =
    { r.interval with left := r.interval.left + s.delta, right := r.interval.right + s.delta }
  kept : ∀ r ∈ rows, r.id ∉ around → r.interval.left ≤ right → s.apply r.interval = r.interval

namespace Table

/-- What an insertion makes of a table: a row `new` takes the right bound of its parent `p`, and the
gap for it is opened by two numbers, which the parent and the nodes `above` it get on their right
and all rows behind the parent on both sides. -/
structure OpensUnder (t : Table) (p : Row) (above : List Item) (new : Row) (t' : Table) :
    Prop where
  place : new.interval = ⟨p.interval.right, p.interval.right + 1, p.interval.depth + 1⟩
  rows : t'.rows = t.rows.map (Row.moved ⟨p.interval.right, 2⟩) ++ [new]
  split : (Shift.mk p.interval.right 2).Splits t.rows (p.id :: above.map (·.id)) p.interval.right

/-- What a deletion makes of a table: `a` and what is `below` it are gone, and the gap is closed by
the width that they had, which the nodes `above` lose on their right and all rows behind `a` on both
sides. -/
structure ClosesOver (t : Table) (a : Row) (below : Grove Item) (above : List Item) (t' : Table) :
    Prop where
  rows : t'.rows = (t.rows.filter (·.id ∉ a.id :: below.ids)).map
    (Row.moved ⟨a.interval.left, -(a.interval.right - a.interval.left + 1)⟩)
  split : (Shift.mk a.interval.left (-(a.interval.right - a.interval.left + 1))).Splits
    (t.rows.filter (·.id ∉ a.id :: below.ids)) (above.map (·.id)) a.interval.right

variable {t t' : Table} {o : Outline} {p r : Row}

/-! ## How rows lie to each other -/

theorem bounds_of_mem (h : t.rows.Perm o.rows) (hr : r ∈ t.rows) :
    r.interval.left < r.interval.right :=
  (Grove.bounds_of_mem_tour (mem_tour_of_perm h hr)).2.1

/-- Of two rows, either one encloses the other or it ends before the other begins. -/
theorem apart_of_mem (h : t.rows.Perm o.rows) (hr : r ∈ t.rows) (hp : p ∈ t.rows) (hne : r ≠ p) :
    Grove.Apart r.interval p.interval ∨ Grove.Apart p.interval r.interval := by
  have hpair : o.rows.Pairwise fun a b =>
      Grove.Apart a.interval b.interval ∨ Grove.Apart b.interval a.interval :=
    List.pairwise_map.mpr ((Grove.pairwise_tour o.grove 0 1).imp .inl)
  have hsymm : Std.Symm fun a b : Row =>
      Grove.Apart a.interval b.interval ∨ Grove.Apart b.interval a.interval :=
    ⟨fun _ _ => Or.symm⟩
  exact hpair.forall (h.subset hr) (h.subset hp) hne

/-- The nodes of the tree that a filter accepts are those whose rows it accepts. -/
theorem id_mem_filter_iff (h : t.rows.Perm o.rows) (hr : r ∈ t.rows) (f : Filter) :
    r.id ∈ (((o.grove.tour 0 1).filter (f.accepts ·.2)).map Prod.fst).map (·.id) ↔
      f.accepts r.interval = true := by
  rw [← map_item_filter, List.map_map, List.mem_map]
  constructor
  · rintro ⟨r', hr', hid⟩
    obtain ⟨hmem, haccepts⟩ := List.mem_filter.mp hr'
    have heq : r' = r := List.inj_on_of_nodup_map t.nodup_ids (h.symm.subset hmem) hr hid
    exact heq ▸ haccepts
  · exact fun haccepts => ⟨r, List.mem_filter.mpr ⟨h.subset hr, haccepts⟩, rfl⟩

/-- The nodes above a node lie around it, and no others do. -/
theorem id_mem_above_iff (h : t.rows.Perm o.rows) (hp : p ∈ t.rows) (hr : r ∈ t.rows)
    {above : List Item} (habove : o.grove.above? p.id = some above) :
    r.id ∈ above.map (·.id) ↔
      r.interval.left < p.interval.left ∧ p.interval.right < r.interval.right := by
  obtain ⟨above', habove', -, hfilter⟩ :=
    Grove.filter_around_tour (nodup_of_perm h) (mem_tour_of_perm h hp)
  obtain rfl : above = above' := Option.some.inj (habove.symm.trans habove')
  have hfst := congrArg (List.map Prod.fst) hfilter
  rw [List.map_map, List.zipIdx_map_fst] at hfst
  rw [← Filter.accepts_around_iff, ← id_mem_filter_iff h hr, ← hfst]
  rfl

/-- The nodes below a node lie inside it, and no others do. -/
theorem id_mem_below_iff (h : t.rows.Perm o.rows) (hp : p ∈ t.rows) (hr : r ∈ t.rows)
    {below : Grove Item} (hsub : o.grove.subtree? p.id = some ⟨p.item, below⟩) :
    r.id ∈ below.ids ↔
      p.interval.left < r.interval.left ∧ r.interval.right < p.interval.right := by
  have hinside := Grove.filter_inside_tour (nodup_of_perm h) (mem_tour_of_perm h hp) hsub
  rw [← Filter.accepts_inside_iff, ← id_mem_filter_iff h hr, hinside, Grove.map_fst_tour]
  rfl

/-- Between the bounds of a node stand the node and what is below it. -/
theorem id_mem_subtree_iff (h : t.rows.Perm o.rows) (hp : p ∈ t.rows) (hr : r ∈ t.rows)
    {below : Grove Item} (hsub : o.grove.subtree? p.id = some ⟨p.item, below⟩) :
    r.id ∈ p.id :: below.ids ↔
      (Filter.within p.interval.left p.interval.right).accepts r.interval = true := by
  have hwithin : (Filter.within p.interval.left p.interval.right).accepts r.interval = true ↔
      p.interval.left ≤ r.interval.left ∧ r.interval.right ≤ p.interval.right :=
    Grove.inRange_iff (e := (r.item, r.interval))
  rw [hwithin, List.mem_cons, id_mem_below_iff h hp hr hsub]
  by_cases heq : r = p
  · subst heq
    simp
  · have hid : r.id ≠ p.id := fun hid => heq (List.inj_on_of_nodup_map t.nodup_ids hr hp hid)
    have hr' := bounds_of_mem h hr
    have hp' := bounds_of_mem h hp
    rw [or_iff_right hid]
    constructor
    · rintro ⟨hleft, hright⟩
      exact ⟨Int.le_of_lt hleft, Int.le_of_lt hright⟩
    · rintro ⟨hleft, hright⟩
      rcases apart_of_mem h hr hp heq with hapart | hapart
      · rcases hapart with hapart | hapart <;> omega
      · rcases hapart with hapart | hapart <;> omega

/-! ## Opening and closing a gap -/

/-- The gap for a new last child is opened at the parent's right bound: the parent and the nodes
above it reach beyond that, and what begins there follows the parent. -/
theorem splits_opening (h : t.rows.Perm o.rows) (hp : p ∈ t.rows) {above : List Item}
    (habove : o.grove.above? p.id = some above) :
    (Shift.mk p.interval.right 2).Splits t.rows (p.id :: above.map (·.id)) p.interval.right := by
  have hreach : ∀ r ∈ t.rows, r.id ∈ p.id :: above.map (·.id) ↔
      r = p ∨ (r.interval.left < p.interval.left ∧ p.interval.right < r.interval.right) := by
    intro r hr
    rw [List.mem_cons, id_mem_above_iff h hp hr habove]
    apply or_congr_left
    exact ⟨List.inj_on_of_nodup_map t.nodup_ids hr hp, congrArg Row.id⟩
  have hp' := bounds_of_mem h hp
  constructor
  · intro r hr haround
    apply Shift.apply_of_lt_of_le
    · rcases (hreach r hr).mp haround with rfl | haround <;> dsimp only <;> omega
    · rcases (hreach r hr).mp haround with rfl | haround <;> dsimp only <;> omega
  · intro r hr hbehind
    have hr' := bounds_of_mem h hr
    exact Shift.apply_of_le (Int.le_of_lt hbehind) (by dsimp only; omega)
  · intro r hr hnot hleft
    rw [hreach r hr, not_or] at hnot
    have hr' := bounds_of_mem h hr
    have hapart := apart_of_mem h hr hp hnot.1
    simp only [Grove.Apart] at hapart
    apply Shift.apply_of_lt <;> dsimp only <;> omega

/-- A row that does not go with a node lies around it, before it or behind it. -/
theorem beside_of_notMem (h : t.rows.Perm o.rows) (hp : p ∈ t.rows) (hr : r ∈ t.rows)
    {below : Grove Item} (hsub : o.grove.subtree? p.id = some ⟨p.item, below⟩)
    (hnot : r.id ∉ p.id :: below.ids) :
    (r.interval.left < p.interval.left ∧ p.interval.right < r.interval.right) ∨
      r.interval.right < p.interval.left ∨ p.interval.right < r.interval.left := by
  rw [List.mem_cons, id_mem_below_iff h hp hr hsub, not_or] at hnot
  have hne : r ≠ p := fun heq => hnot.1 (congrArg Row.id heq)
  have hapart := apart_of_mem h hr hp hne
  simp only [Grove.Apart] at hapart
  omega

/-- The gap of a node is closed at its left bound, and no bound that is left lies inside the gap:
the nodes above the node reach beyond it, and what begins there follows the node. -/
theorem splits_closing (h : t.rows.Perm o.rows) (hp : p ∈ t.rows) {below : Grove Item}
    (hsub : o.grove.subtree? p.id = some ⟨p.item, below⟩) {above : List Item}
    (habove : o.grove.above? p.id = some above) (d : Int) :
    (Shift.mk p.interval.left d).Splits (t.rows.filter (·.id ∉ p.id :: below.ids))
      (above.map (·.id)) p.interval.right := by
  have hrest : ∀ r ∈ t.rows.filter (·.id ∉ p.id :: below.ids),
      r ∈ t.rows ∧ r.id ∉ p.id :: below.ids := fun r hr => by simpa using hr
  have hp' := bounds_of_mem h hp
  constructor
  · intro r hr haround
    obtain ⟨hr, -⟩ := hrest r hr
    rw [id_mem_above_iff h hp hr habove] at haround
    exact Shift.apply_of_lt_of_le haround.1 (by dsimp only; omega)
  · intro r hr hbehind
    have hr' := bounds_of_mem h (hrest r hr).1
    apply Shift.apply_of_le <;> dsimp only <;> omega
  · intro r hr hnot hleft
    obtain ⟨hr, hgone⟩ := hrest r hr
    rw [id_mem_above_iff h hp hr habove] at hnot
    have hr' := bounds_of_mem h hr
    have hbeside := beside_of_notMem h hp hr hsub hgone
    apply Shift.apply_of_lt <;> dsimp only <;> omega

theorem rows_applyShift_eq (t : Table) (s : Shift) :
    (t.applyShift s).rows = t.rows.map (Row.moved s) :=
  rows_applyShift t s

/-- A row placed under another one gets the next identity, behind all that are there. -/
theorem rows_placeUnder (h : ∀ r ∈ t.rows, r.id.val < t.nextId) (attributes : Attributes)
    (p : Row) :
    (t.placeUnder attributes p).2.rows =
      t.rows.map (Row.moved (Shift.opening p.interval.right)) ++
        [(t.placeUnder attributes p).1] := by
  have hlt : ∀ r ∈ (t.applyShift (Shift.opening p.interval.lastChild.left)).rows,
      r.id.val < (t.applyShift (Shift.opening p.interval.lastChild.left)).nextId := by
    intro r hr
    rw [rows_applyShift_eq] at hr
    obtain ⟨r', hr', rfl⟩ := List.mem_map.mp hr
    exact h r' hr'
  rw [placeUnder, rows_insert_of_lt hlt, rows_applyShift_eq]
  rfl

/-- What is taken out is the node with all that is below it. -/
theorem rows_takeOut (h : t.rows.Perm o.rows) (hp : p ∈ t.rows) {below : Grove Item}
    (hsub : o.grove.subtree? p.id = some ⟨p.item, below⟩) :
    (t.takeOut p).rows = (t.rows.filter (·.id ∉ p.id :: below.ids)).map
      (Row.moved ⟨p.interval.left, -p.interval.span⟩) := by
  have hkept : (t.delete (Filter.within p.interval.left p.interval.right)).rows =
      t.rows.filter (·.id ∉ p.id :: below.ids) := by
    apply List.filter_congr
    intro r hr
    rw [Bool.eq_iff_iff, decide_eq_true_iff, id_mem_subtree_iff h hp hr hsub, Bool.not_eq_true',
      Bool.not_eq_true]
  rw [takeOut, rows_applyShift_eq, hkept]

/-- The nodes of a tree are stored in one order only. -/
theorem rows_eq_of_perm (h : t.rows.Perm o.rows) (h' : t'.rows.Perm o.rows) : t.rows = t'.rows := by
  refine List.Perm.eq_of_pairwise ?_ t.ascending t'.ascending (h.trans h'.symm)
  intro r r' _ _ hlt hgt
  omega

/-- An outline is drawn in one way only. -/
theorem Draws.unique (h : t.Draws o) (h' : t'.Draws o) : t = t' := by
  have hrows := rows_eq_of_perm h.rows h'.rows
  have hnext : t.nextId = t'.nextId := h.nextId.trans h'.nextId.symm
  obtain ⟨rows, nextId, _⟩ := t
  obtain ⟨rows', nextId', _⟩ := t'
  cases hrows
  cases hnext
  rfl

end Table

/-! ## Changes of a store -/

namespace Store

variable {s : Store} {o : Outline} {p : Row}

private theorem insert_of_root (h : s.table.root? = .ok (some p)) (attributes : Attributes) :
    s.insert Faults.none attributes none =
      (.ok (s.table.placeUnder attributes p).1,
        ⟨(s.table.placeUnder attributes p).2, s.version.next⟩) := by
  have hunit : (Work.mk s.table Quota.unlimited).insertUnder attributes none =
      (Work.mk s.table Quota.unlimited).placeUnder attributes p := by
    rw [Work.insertUnder, h]
    rfl
  rw [insert, change_none, hunit, Work.placeUnder_unlimited]

theorem insert_of_mem (hp : p ∈ s.table.rows) (attributes : Attributes) :
    s.insert Faults.none attributes (some p.id) =
      (.ok (s.table.placeUnder attributes p).1,
        ⟨(s.table.placeUnder attributes p).2, s.version.next⟩) := by
  have hunit : (Work.mk s.table Quota.unlimited).insertUnder attributes (some p.id) =
      (Work.mk s.table Quota.unlimited).placeUnder attributes p := by
    rw [Work.insertUnder, Table.get?_of_mem hp]
  rw [insert, change_none, hunit, Work.placeUnder_unlimited]

/-- A node is taken out with all that is below it, unless that is not asked for. -/
theorem delete_of_mem (h : s.table.Draws o) (hp : p ∈ s.table.rows) {below : Grove Item}
    (hsub : o.grove.subtree? p.id = some ⟨p.item, below⟩) (withDescendants : Bool) :
    s.delete Faults.none p.id withDescendants =
      if below.size ≠ 0 ∧ withDescendants = false then
        (.error (.hasChildren p.id below.size), s)
      else (.ok (below.size + 1), ⟨s.table.takeOut p, s.version.next⟩) := by
  have hmatches := Work.deleteNode_matches (w := ⟨s.table, Quota.unlimited⟩) h p.id withDescendants
  simp only [Outline.delete, hsub] at hmatches
  rw [delete, change_none]
  split at hmatches
  · next hkeep =>
    have herror : (Work.mk s.table Quota.unlimited).deleteNode p.id withDescendants =
        .error (.hasChildren p.id below.size) := hmatches
    rw [herror, if_pos hkeep]
  · next hkeep =>
    obtain ⟨⟨n, w⟩, hok, hcount, hdraws, -⟩ := Work.Does.exists_ok hmatches rfl
    have hcount : n = below.size + 1 := hcount
    have htable : w.table = s.table.takeOut p := hdraws.unique (h.remove hp)
    rw [hok, if_neg hkeep, hcount]
    dsimp only
    rw [htable]

end Store

/-- Where the changes at a node move the rows, in a tree in which `below` stands below the node and
`above` is the chain of nodes above it: a new child opens a gap under it, whether the node is named
as the parent or is the root and none is named, and taking it out closes its gap. -/
structure Store.MovesRows (s : Store) (g : Grove Item) (p : Row) (below : Grove Item)
    (above : List Item) : Prop where
  subtree : g.subtree? p.id = some ⟨p.item, below⟩
  chain : g.above? p.id = some above
  insert : ∀ attributes parent,
    (parent = some p.id ∨ (parent = none ∧ s.table.root? = .ok (some p))) →
      ∃ new t', s.insert Faults.none attributes parent = (.ok new, ⟨t', s.version.next⟩) ∧
        new.id = ⟨s.table.nextId⟩ ∧ new.attributes = attributes ∧
          s.table.OpensUnder p above new t'
  delete : ∀ withDescendants n s', s.delete Faults.none p.id withDescendants = (.ok n, s') →
    n = below.size + 1 ∧ s.table.ClosesOver p below above s'.table

theorem Store.exists_movesRows {s : Store} {o : Outline} {p : Row} (h : s.table.Draws o)
    (hp : p ∈ s.table.rows) : ∃ below above, s.MovesRows o.grove p below above := by
  obtain ⟨below, hsub, -⟩ := h.subtree? hp
  obtain ⟨above, habove, -⟩ := Grove.filter_around_tour h.nodup (h.mem hp)
  refine ⟨below, above, hsub, habove, fun attributes parent hparent => ?_, ?_⟩
  · have hinsert : s.insert Faults.none attributes parent =
        (.ok (s.table.placeUnder attributes p).1,
          ⟨(s.table.placeUnder attributes p).2, s.version.next⟩) := by
      rcases hparent with rfl | ⟨rfl, hroot⟩
      · exact insert_of_mem hp attributes
      · exact insert_of_root hroot attributes
    have hrows := Table.rows_placeUnder (fun r hr => h.lt_nextId hr) attributes p
    exact ⟨_, _, hinsert, rfl, rfl, rfl, hrows, Table.splits_opening h.rows hp habove⟩
  · intro withDescendants n s' hdelete
    rw [delete_of_mem h hp hsub] at hdelete
    split at hdelete
    · cases hdelete
    · cases hdelete
      exact ⟨rfl, Table.rows_takeOut h.rows hp hsub, Table.splits_closing h.rows hp hsub habove _⟩

/-- The two passes of a shift move every row as a whole. On a sound table, which every table that
commands lead to is if its rows pass the check, an insertion and a deletion stretch the nodes above
their place, carry along what begins behind it, and keep all other rows. -/
theorem edits_displace_rows :
    (∀ (w w' : Work) (shift : Shift), w.applyShift shift = .ok w' →
      w'.table.rows = w.table.rows.map (Row.moved shift)) ∧
    (∀ s : Store, s.table.Sound → ∃ o : Outline, s.table.Draws o ∧
      ∀ p ∈ s.table.rows, ∃ below above, s.MovesRows o.grove p below above) ∧
    ∀ (first second : Settings) (commands : List (Bool × Session.Command)) (summary : Summary),
      let t := ((Session.start first second).finish commands).store.table
      Numbering.check t.rows = .ok summary → t.Sound := by
  refine ⟨fun w w' shift hok => ?_, fun s h => ?_, fun first second commands summary =>
    Session.sound_of_check first second commands⟩
  · have hdoes := Work.does_applyShift w shift
    rw [hok] at hdoes
    rw [hdoes.1, Table.rows_applyShift_eq]
  · obtain ⟨o, ho⟩ := Table.sound_iff_draws.mp h
    exact ⟨o, ho, fun p hp => Store.exists_movesRows ho hp⟩

/-- A root above two nodes, of which the first has one below it. -/
def Table.fourNodes : Table :=
  ((((empty.insert Dict.empty ⟨1, 8, 0⟩).2.insert Dict.empty ⟨2, 5, 1⟩).2.insert
    Dict.empty ⟨6, 7, 1⟩).2.insert Dict.empty ⟨3, 4, 2⟩).2

theorem Table.sound_fourNodes : fourNodes.Sound := by
  have hcheck : Numbering.check fourNodes.rows = .ok ⟨4, 2, 2⟩ :=
    Numbering.check_of_perm_intervals
      (t := ⟨(), .cons () (.cons () .nil .nil) (.cons () .nil .nil)⟩)
      (.cons _ (.cons _ (.swap ..)))
  exact ⟨⟨_, hcheck⟩, by decide⟩

/-- What one command stores in an empty table passes the check. -/
theorem Table.check_loneRoot :
    Numbering.check ((Session.start .default .default).finish
      [(false, .insertRoot Dict.empty)]).store.table.rows = .ok ⟨1, 1, 0⟩ := by
  have hrows : ((Session.start .default .default).finish
      [(false, .insertRoot Dict.empty)]).store.table.rows =
        [⟨⟨1⟩, Interval.root, Dict.empty⟩] := by decide +kernel
  rw [hrows]
  exact Numbering.check_of_perm_intervals (t := ⟨(), .nil⟩) (.refl _)

/-- A gap opened under the first node below the root; and a root that one command stored. -/
theorem edits_displace_rows_four_nodes :
    let t := Table.fourNodes
    let opening := Shift.opening 5
    let t' := ((Session.start .default .default).finish
      [(false, .insertRoot Dict.empty)]).store.table
    (Work.mk t Quota.unlimited).applyShift opening =
        .ok ⟨t.applyShift opening, Quota.unlimited⟩ ∧
      (t.applyShift opening).rows = t.rows.map (Row.moved opening) ∧ t.Sound ∧
      (∃ o : Outline, t.Draws o ∧ ∀ p ∈ t.rows, ∃ below above,
        (Store.mk t ⟨4⟩).MovesRows o.grove p below above) ∧
      Numbering.check t'.rows = .ok ⟨1, 1, 0⟩ ∧ t'.Sound := by
  intro t opening t'
  have hshift : (Work.mk t Quota.unlimited).applyShift opening =
      .ok ⟨t.applyShift opening, Quota.unlimited⟩ := rfl
  exact ⟨hshift, edits_displace_rows.1 _ _ opening hshift, Table.sound_fourNodes,
    edits_displace_rows.2.1 ⟨t, ⟨4⟩⟩ Table.sound_fourNodes, Table.check_loneRoot,
    edits_displace_rows.2.2 .default .default [(false, .insertRoot Dict.empty)] _
      Table.check_loneRoot⟩

end FlatTree
