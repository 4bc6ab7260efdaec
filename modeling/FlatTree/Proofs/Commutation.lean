import FlatTree.Proofs.Displacement

/-!
# Changes that do not depend on each other

Two shifts do not commute as they stand: the first one moves the place at which the second begins.
The changes they belong to do commute, wherever their places lie to each other, as long as none of
them touches what the other one takes out. On a tree this is plain but for one thing: of two
insertions the one made first gets the smaller identity. Of these it is told by the numbers.
-/

namespace FlatTree

/-! ## By the numbers -/

namespace Shift

/-- Two gaps that are opened one after the other may be opened the other way round, if the second
place is told as it is once the first gap is open. -/
theorem opening_comm (a b : Int) (i : Interval) :
    (opening ((opening a).bound b)).apply ((opening a).apply i) =
      (opening ((opening b).bound a)).apply ((opening b).apply i) := by
  have hbound : ∀ x, (opening ((opening a).bound b)).bound ((opening a).bound x) =
      (opening ((opening b).bound a)).bound ((opening b).bound x) := by
    intro x
    simp only [opening, bound]
    split_ifs <;> omega
  simp only [apply, hbound]

/-- A new last child is moved by a gap elsewhere as its parent is. -/
theorem opening_lastChild {i : Interval} {b : Int} (h : i.right ≠ b) :
    (opening ((opening i.right).bound b)).apply i.lastChild = ((opening b).apply i).lastChild := by
  simp only [Interval.lastChild, apply, opening, bound, Interval.mk.injEq, and_true]
  split_ifs <;> omega

end Shift

/-! ## On trees -/

namespace Grove

variable {g : Grove Item} {a b : NodeId} {t : Tree Item}

/-- A node stands below another one, on whatever level. -/
def Under (g : Grove Item) (upper lower : NodeId) : Prop :=
  ∃ t, g.subtree? upper = some t ∧ lower ∈ t.below.ids

theorem ids_remove_subset (g : Grove Item) (a : NodeId) : (g.remove a).ids ⊆ g.ids :=
  ((items_remove_sublist g a).map _).subset

private theorem items_below_sublist (h : g.subtree? a = some t) :
    t.below.items.Sublist g.items := by
  induction g with
  | nil => cases h
  | cons n below after ihb iha =>
    refine List.Sublist.cons n ?_
    by_cases ha : n.id = a
    · rw [subtree?, if_pos ha] at h
      cases h
      exact List.sublist_append_left ..
    · rw [subtree?, if_neg ha, Option.or_eq_some_iff] at h
      rcases h with h | ⟨-, h⟩
      · exact (ihb h).trans (List.sublist_append_left ..)
      · exact (iha h).trans (List.sublist_append_right ..)

theorem ids_below_sublist (h : g.subtree? a = some t) : t.below.ids.Sublist g.ids :=
  (items_below_sublist h).map _

/-- Taking out a node takes out what stands below it. -/
theorem notMem_remove_of_under (hn : g.ids.Nodup) (h : g.Under a b) : b ∉ (g.remove a).ids := by
  obtain ⟨t, ht, hb⟩ := h
  induction g with
  | nil => cases ht
  | cons n below after ihb iha =>
    obtain ⟨hnb', hna', hnb, hna, hdis⟩ := nodup_ids_cons.mp hn
    by_cases ha : n.id = a
    · rw [subtree?, if_pos ha] at ht
      cases ht
      rw [remove, if_pos ha]
      exact fun hmem => hdis b hb (ids_remove_subset _ _ hmem)
    · rw [subtree?, if_neg ha, Option.or_eq_some_iff] at ht
      rw [remove, if_neg ha, ids_cons, List.mem_cons, List.mem_append]
      rcases ht with ht | ⟨-, ht⟩
      · have hmem := (ids_below_sublist ht).subset hb
        rintro (rfl | hmem' | hmem')
        · exact hnb' hmem
        · exact ihb hnb ht hmem'
        · exact hdis b hmem (ids_remove_subset _ _ hmem')
      · have hmem := (ids_below_sublist ht).subset hb
        rintro (rfl | hmem' | hmem')
        · exact hna' hmem
        · exact hdis b (ids_remove_subset _ _ hmem') hmem
        · exact iha hna ht hmem'

theorem remove_comm (g : Grove Item) (a b : NodeId) :
    (g.remove a).remove b = (g.remove b).remove a := by
  induction g with
  | nil => rfl
  | cons n below after ihb iha =>
    by_cases ha : n.id = a
    · by_cases hb : n.id = b
      · simp only [remove, if_pos ha, if_pos hb, iha]
      · simp only [remove, if_pos ha, if_neg hb, iha]
    · by_cases hb : n.id = b
      · simp only [remove, if_neg ha, if_pos hb, iha]
      · simp only [remove, if_neg ha, if_neg hb, ihb, iha]

theorem remove_snoc {x : Item} (h : x.id ≠ a) (g : Grove Item) :
    (g.snoc x).remove a = (g.remove a).snoc x := by
  induction g with
  | nil => simp only [snoc, remove, if_neg h]
  | cons n below after _ iha =>
    by_cases ha : n.id = a
    · simp only [snoc, remove, if_pos ha, iha]
    · simp only [snoc, remove, if_neg ha, iha]

/-- Taking out one node and adding another are independent even if the one is the parent, or above
the parent, of the other: then nothing is added. -/
theorem remove_insertUnder {x : Item} (h : x.id ≠ a) (g : Grove Item) (p : NodeId) :
    (g.insertUnder p x).remove a = (g.remove a).insertUnder p x := by
  induction g with
  | nil => rfl
  | cons n below after ihb iha =>
    by_cases ha : n.id = a
    · simp only [insertUnder, remove, if_pos ha, iha]
    · by_cases hp : n.id = p
      · simp only [insertUnder, remove, if_neg ha, if_pos hp, remove_snoc h, ihb, iha]
      · simp only [insertUnder, remove, if_neg ha, if_neg hp, ihb, iha]

/-- What stands below a node after another one was taken out, unless the node went with it. -/
theorem subtree?_remove (hn : g.ids.Nodup) (h : g.subtree? b = some t) (hne : b ≠ a)
    (hunder : ¬g.Under a b) : (g.remove a).subtree? b = some ⟨t.root, t.below.remove a⟩ := by
  induction g with
  | nil => cases h
  | cons n below after ihb iha =>
    obtain ⟨-, -, hnb, hna, hdis⟩ := nodup_ids_cons.mp hn
    by_cases ha : n.id = a
    · have hnot : b ∉ below.ids := fun hb => hunder ⟨⟨n, below⟩, by rw [subtree?, if_pos ha], hb⟩
      rw [subtree?, if_neg (fun hb => hne (hb.symm.trans ha)), subtree?_eq_none_iff.mpr hnot,
        Option.none_or] at h
      rw [remove, if_pos ha]
      refine iha hna h ?_
      rintro ⟨t', ht', -⟩
      exact (nodup_ids_cons.mp hn).2.1 (ha ▸ id_mem_of_subtree? ht')
    · rw [remove, if_neg ha, subtree?]
      by_cases hb : n.id = b
      · rw [subtree?, if_pos hb] at h
        cases h
        rw [if_pos hb]
      · rw [subtree?, if_neg hb, Option.or_eq_some_iff] at h
        rw [if_neg hb]
        rcases h with h | ⟨hnone, h⟩
        · rw [ihb hnb h, Option.some_or]
          rintro ⟨t', ht', hlower⟩
          exact hunder ⟨t', by rw [subtree?, if_neg ha, ht', Option.some_or], hlower⟩
        · have hnone' : (below.remove a).subtree? b = none :=
            subtree?_eq_none_iff.mpr fun hmem =>
              subtree?_eq_none_iff.mp hnone (ids_remove_subset _ _ hmem)
          rw [hnone', Option.none_or]
          refine iha hna h ?_
          rintro ⟨t', ht', hlower⟩
          have hbelow : below.subtree? a = none := subtree?_eq_none_iff.mpr fun hmem =>
            hdis a hmem (id_mem_of_subtree? ht')
          exact hunder ⟨t', by rw [subtree?, if_neg ha, hbelow, Option.none_or, ht'], hlower⟩

private theorem subtree?_remove_of_apart (hn : g.ids.Nodup) (h : g.subtree? b = some t)
    (hne : b ≠ a) (hab : ¬g.Under a b) (hba : ¬g.Under b a) : (g.remove a).subtree? b = some t := by
  rw [subtree?_remove hn h hne hab, remove_of_notMem fun hmem => hba ⟨t, h, hmem⟩]

theorem subtree?_snoc {x : Item} (h : x.id ≠ a) (g : Grove Item) :
    (g.snoc x).subtree? a = g.subtree? a := by
  induction g with
  | nil => simp only [snoc, subtree?, if_neg h, Option.or_none]
  | cons n below after _ iha => simp only [snoc, subtree?, iha]

/-- What stands below a node after another one was added. -/
theorem subtree?_insertUnder {x : Item} (h : x.id ≠ a) (g : Grove Item) (p : NodeId) :
    (g.insertUnder p x).subtree? a = (g.subtree? a).map (Tree.insertUnder p x) := by
  induction g with
  | nil => rfl
  | cons n below after ihb iha =>
    by_cases ha : n.id = a
    · simp only [insertUnder, subtree?, if_pos ha]
      rfl
    · have hbelow : (if n.id = p then (below.insertUnder p x).snoc x
          else below.insertUnder p x).subtree? a =
            (below.subtree? a).map (Tree.insertUnder p x) := by
        split
        · rw [subtree?_snoc h, ihb]
        · exact ihb
      simp only [insertUnder, subtree?, if_neg ha, hbelow, iha]
      cases below.subtree? a <;> rfl

end Grove

namespace Outline

variable {o : Outline} {a b : NodeId} {t : Tree Item}

/-- Outlines with the same nodes and the same next number are the same. -/
theorem eq_of_grove {o o' : Outline} (h : o.grove = o'.grove) (hnext : o.nextId = o'.nextId) :
    o = o' := by
  obtain ⟨_ | ⟨root, below⟩, n⟩ := o <;> obtain ⟨_ | ⟨root', below'⟩, n'⟩ := o' <;>
    cases h <;> cases hnext <;> rfl

theorem remove_comm (o : Outline) (a b : NodeId) :
    (o.remove a).remove b = (o.remove b).remove a := by
  apply eq_of_grove
  · simp only [grove_remove, Grove.remove_comm]
  · rfl

private theorem remove_place (attributes : Attributes) (p : NodeId) (h : a ∈ o.ids)
    (hfresh : ∀ id ∈ o.ids, id.val < o.nextId) :
    (o.place attributes p).remove a = (o.remove a).place attributes p := by
  have hne : (o.fresh attributes).id ≠ a := fun heq =>
    absurd (hfresh a h) (heq ▸ Nat.lt_irrefl o.nextId)
  apply eq_of_grove
  · simp only [grove_remove, grove_place, Grove.remove_insertUnder hne]
    rfl
  · rfl

/-- What goes first below a node leaves nothing behind that would not go with the node. -/
theorem remove_remove_of_under (hn : o.ids.Nodup) (h : o.grove.Under a b) :
    (o.remove b).remove a = o.remove a := by
  rw [remove_comm]
  apply eq_of_grove
  · rw [grove_remove, grove_remove]
    exact Grove.remove_of_notMem (o.grove_remove a ▸ Grove.notMem_remove_of_under hn h)
  · rfl

/-- What is below a node goes with it. -/
theorem edit_delete (h : o.grove.subtree? a = some t) :
    o.edit (.delete a true) = (.ok (.removed (t.below.size + 1)), o.remove a) := by
  simp only [edit, delete, h, Bool.true_eq_false, and_false, if_false]
  rfl

theorem edit_insert (h : a ∈ o.ids) (attributes : Attributes) :
    o.edit (.insert attributes (some a)) =
      (.ok (.stored (o.fresh attributes)), o.place attributes a) := by
  simp only [edit, insert, if_pos h]
  rfl

end Outline

/-- A row lies inside another one if its node stands below the other's. -/
theorem Table.Draws.under_iff {t : Table} {o : Outline} {a b : Row} (h : t.Draws o)
    (ha : a ∈ t.rows) (hb : b ∈ t.rows) : o.grove.Under a.id b.id ↔
      a.interval.left < b.interval.left ∧ b.interval.right < a.interval.right := by
  obtain ⟨below, hsub, -⟩ := h.subtree? ha
  rw [← Table.id_mem_below_iff h.rows ha hb hsub]
  constructor
  · rintro ⟨tree, htree, hmem⟩
    rw [hsub] at htree
    cases htree
    exact hmem
  · exact fun hmem => ⟨_, hsub, hmem⟩

/-! ## Of a store -/

/-- A reply without the place of the node that was stored. -/
def Reply.item : Reply Row → Reply Item
  | .stored r => .stored r.item
  | .removed n => .removed n

theorem Reply.eq_removed_of_item {a : Reply Row} {n : Nat} (h : a.item = .removed n) :
    a = .removed n := by
  cases a <;> cases h
  rfl

theorem Reply.exists_stored_of_item {a : Reply Row} {x : Item} (h : a.item = .stored x) :
    ∃ r, a = .stored r ∧ r.item = x := by
  cases a <;> cases h
  exact ⟨_, rfl, rfl⟩

namespace Store

variable {s : Store} {o o' o'' : Outline}

/-- Two changes in turn, which must both succeed: what they answer, and the store behind them. -/
def editBoth (s : Store) (e e' : Edit) : Except TreeError (Reply Row × Reply Row × Store) := do
  let first ← (s.edit e).1
  let second ← ((s.edit e).2.edit e').1
  pure (first, second, ((s.edit e).2.edit e').2)

theorem AllOrNothing.map {ε α β : Type} {r : Except ε α × Store} (h : s.AllOrNothing r)
    (f : α → β) : s.AllOrNothing (r.1.map f, r.2) := by
  obtain ⟨outcome, s'⟩ := r
  cases outcome <;> exact h

theorem allOrNothing_edit (s : Store) (e : Edit) : s.AllOrNothing (s.edit e) := by
  have hchange {α : Type} (unit : Work → Except TreeError (α × Work)) :
      s.AllOrNothing (s.change Faults.none unit) := allOrNothing_write rfl _ _
  cases e with
  | insert attributes parent => exact (hchange (·.insertUnder attributes parent)).map Reply.stored
  | insertRoot attributes => exact (hchange (·.insertRoot attributes)).map Reply.stored
  | delete id withDescendants => exact (hchange (·.deleteNode id withDescendants)).map Reply.removed

/-- A change that can be made of an outline can be made of a store whose table draws it. -/
theorem exists_edit_ok (h : s.table.Draws o) {e : Edit} {b : Reply Item}
    (he : o.edit e = (.ok b, o')) :
    ∃ a t, s.edit e = (.ok a, ⟨t, s.version.next⟩) ∧ a.item = b ∧ t.Draws o' := by
  obtain ⟨hagree, hdraws⟩ := edit_agrees h e
  have hversion := allOrNothing_edit s e
  rw [he] at hagree hdraws
  generalize s.edit e = r at hagree hdraws hversion
  obtain ⟨_ | a, t, v⟩ := r
  · cases hagree
  · cases hversion
    refine ⟨a, t, rfl, ?_, hdraws⟩
    cases a <;> cases b <;> cases hagree
    · next hitem => exact congrArg Reply.stored hitem
    · rfl

theorem exists_editBoth (h : s.table.Draws o) {e e' : Edit} {b b' : Reply Item}
    (he : o.edit e = (.ok b, o')) (he' : o'.edit e' = (.ok b', o'')) :
    ∃ a a' t, s.editBoth e e' = .ok (a, a', ⟨t, s.version.next.next⟩) ∧ a.item = b ∧
      a'.item = b' ∧ t.Draws o'' := by
  obtain ⟨a, t, hedit, hitem, hdraws⟩ := exists_edit_ok h he
  obtain ⟨a', t', hedit', hitem', hdraws'⟩ := exists_edit_ok (s := ⟨t, s.version.next⟩) hdraws he'
  refine ⟨a, a', t', ?_, hitem, hitem', hdraws'⟩
  rw [editBoth, hedit]
  simp only [hedit']
  rfl

/-- Two insertions number all rows alike in either order: the earlier rows, and the two new ones,
of which the one stored first has the smaller identity. -/
def InsertionsCommute (s : Store) (p q : NodeId) : Prop :=
  ∀ x y : Attributes, ∃ earlier i j new new' t t',
    s.editBoth (.insert x (some p)) (.insert y (some q)) =
        .ok (.stored new, .stored ⟨⟨s.table.nextId + 1⟩, j, y⟩, ⟨t, s.version.next.next⟩) ∧
      s.editBoth (.insert y (some q)) (.insert x (some p)) =
        .ok (.stored new', .stored ⟨⟨s.table.nextId + 1⟩, i, x⟩, ⟨t', s.version.next.next⟩) ∧
      earlier.map Row.item = s.table.rows.map Row.item ∧
      t.rows = earlier ++ [⟨⟨s.table.nextId⟩, i, x⟩, ⟨⟨s.table.nextId + 1⟩, j, y⟩] ∧
      t'.rows = earlier ++ [⟨⟨s.table.nextId⟩, j, y⟩, ⟨⟨s.table.nextId + 1⟩, i, x⟩] ∧
      t.nextId = t'.nextId

/-- Two insertions, one after the other, told by the rows before them. -/
theorem editBoth_insert (h : s.table.Draws o) {p q : Row} (hp : p ∈ s.table.rows)
    (hq : q ∈ s.table.rows) (x y : Attributes) :
    let opened := Shift.opening p.interval.right
    let opened' := Shift.opening (opened.bound q.interval.right)
    ∃ t, s.editBoth (.insert x (some p.id)) (.insert y (some q.id)) =
        .ok (.stored ⟨⟨s.table.nextId⟩, p.interval.lastChild, x⟩,
          .stored ⟨⟨s.table.nextId + 1⟩, (opened.apply q.interval).lastChild, y⟩,
          ⟨t, s.version.next.next⟩) ∧
      t.rows = s.table.rows.map (Row.moved opened' ∘ Row.moved opened) ++
        [⟨⟨s.table.nextId⟩, opened'.apply p.interval.lastChild, x⟩,
          ⟨⟨s.table.nextId + 1⟩, (opened.apply q.interval).lastChild, y⟩] ∧
      t.nextId = s.table.nextId + 2 := by
  intro opened opened'
  have hrows := Table.rows_placeUnder (fun r hr => h.lt_nextId hr) x p
  have hq' : Row.moved opened q ∈ (s.table.placeUnder x p).2.rows := by
    rw [hrows]
    exact List.mem_append_left _ (List.mem_map_of_mem hq)
  have hrows' := Table.rows_placeUnder (fun r hr => (h.place hp x).lt_nextId hr) y
    (Row.moved opened q)
  refine ⟨((s.table.placeUnder x p).2.placeUnder y (Row.moved opened q)).2, ?_, ?_, rfl⟩
  · have hfirst : s.edit (.insert x (some p.id)) =
        (.ok (.stored (s.table.placeUnder x p).1),
          ⟨(s.table.placeUnder x p).2, s.version.next⟩) := by
      rw [edit, insert_of_mem hp]
      rfl
    have hsecond : (Store.mk (s.table.placeUnder x p).2 s.version.next).edit
        (.insert y (some q.id)) =
          (.ok (.stored ((s.table.placeUnder x p).2.placeUnder y (Row.moved opened q)).1),
            ⟨((s.table.placeUnder x p).2.placeUnder y (Row.moved opened q)).2,
              s.version.next.next⟩) := by
      rw [edit, show q.id = (Row.moved opened q).id from rfl, insert_of_mem hq']
      rfl
    rw [editBoth, hfirst]
    dsimp only
    rw [hsecond]
    rfl
  · rw [hrows', hrows, List.map_append, List.map_map, List.append_assoc]
    rfl

private theorem insertionsCommute (h : s.table.Draws o) {p q : Row} (hp : p ∈ s.table.rows)
    (hq : q ∈ s.table.rows) (hne : p ≠ q) : s.InsertionsCommute p.id q.id := by
  intro x y
  obtain ⟨t, hedits, hrows, hnext⟩ := editBoth_insert h hp hq x y
  obtain ⟨t', hedits', hrows', hnext'⟩ := editBoth_insert h hq hp y x
  have hright : p.interval.right ≠ q.interval.right := by
    have hp' := Table.bounds_of_mem h.rows hp
    have hq' := Table.bounds_of_mem h.rows hq
    have hapart := Table.apart_of_mem h.rows hp hq hne
    simp only [Grove.Apart] at hapart
    omega
  rw [Shift.opening_lastChild hright] at hrows
  have hmoved :
      Row.moved (Shift.opening ((Shift.opening q.interval.right).bound p.interval.right)) ∘
          Row.moved (Shift.opening q.interval.right) =
        Row.moved (Shift.opening ((Shift.opening p.interval.right).bound q.interval.right)) ∘
          Row.moved (Shift.opening p.interval.right) := by
    funext r
    simp only [Function.comp_apply, Row.moved, Shift.opening_comm q.interval.right]
  rw [Shift.opening_lastChild hright.symm, hmoved] at hrows'
  refine ⟨_, _, _, _, _, t, t', hedits, hedits', ?_, hrows, hrows', hnext.trans hnext'.symm⟩
  rw [List.map_map]
  rfl

/-- Two deletions take out as many nodes each in either order, and leave the same rows. -/
def DeletionsCommute (s : Store) (a b : NodeId) : Prop :=
  ∃ n m t,
    s.editBoth (.delete a true) (.delete b true) =
        .ok (.removed n, .removed m, ⟨t, s.version.next.next⟩) ∧
      s.editBoth (.delete b true) (.delete a true) =
        .ok (.removed m, .removed n, ⟨t, s.version.next.next⟩)

/-- An insertion and a deletion answer alike in either order, but for where the new node stands at
that moment, and leave the same rows. -/
def InsertionCommutes (s : Store) (p a : NodeId) : Prop :=
  ∀ x : Attributes, ∃ new new' n t,
    s.editBoth (.insert x (some p)) (.delete a true) =
        .ok (.stored new, .removed n, ⟨t, s.version.next.next⟩) ∧
      s.editBoth (.delete a true) (.insert x (some p)) =
        .ok (.removed n, .stored new', ⟨t, s.version.next.next⟩) ∧
      new.item = ⟨⟨s.table.nextId⟩, x⟩ ∧ new'.item = ⟨⟨s.table.nextId⟩, x⟩

/-- Two deletions, one after the other, take out what the second one alone would have. -/
def DeletionAbsorbs (s : Store) (a b : NodeId) : Prop :=
  ∃ n m t,
    s.editBoth (.delete b true) (.delete a true) =
        .ok (.removed n, .removed m, ⟨t, s.version.next.next⟩) ∧
      s.edit (.delete a true) = (.ok (.removed (n + m)), ⟨t, s.version.next⟩)

private theorem deletionsCommute (h : s.table.Draws o) {a b : Row} (ha : a ∈ s.table.rows)
    (hb : b ∈ s.table.rows) (hne : a.id ≠ b.id) (hab : ¬o.grove.Under a.id b.id)
    (hba : ¬o.grove.Under b.id a.id) : s.DeletionsCommute a.id b.id := by
  obtain ⟨below, hsub, -⟩ := h.subtree? ha
  obtain ⟨below', hsub', -⟩ := h.subtree? hb
  have hlater : (o.remove a.id).grove.subtree? b.id = some ⟨b.item, below'⟩ := by
    rw [Outline.grove_remove]
    exact Grove.subtree?_remove_of_apart h.nodup hsub' hne.symm hab hba
  have hlater' : (o.remove b.id).grove.subtree? a.id = some ⟨a.item, below⟩ := by
    rw [Outline.grove_remove]
    exact Grove.subtree?_remove_of_apart h.nodup hsub hne hba hab
  obtain ⟨first, second, t, hedits, hfirst, hsecond, hdraws⟩ :=
    exists_editBoth h (Outline.edit_delete hsub) (Outline.edit_delete hlater)
  obtain ⟨first', second', t', hedits', hfirst', hsecond', hdraws'⟩ :=
    exists_editBoth h (Outline.edit_delete hsub') (Outline.edit_delete hlater')
  rw [Outline.remove_comm] at hdraws'
  obtain rfl := hdraws.unique hdraws'
  rw [Reply.eq_removed_of_item hfirst, Reply.eq_removed_of_item hsecond] at hedits
  rw [Reply.eq_removed_of_item hfirst', Reply.eq_removed_of_item hsecond'] at hedits'
  exact ⟨_, _, t, hedits, hedits'⟩

private theorem insertionCommutes (h : s.table.Draws o) {p a : Row} (hp : p ∈ s.table.rows)
    (ha : a ∈ s.table.rows) (hne : p.id ≠ a.id) (hunder : ¬o.grove.Under a.id p.id) :
    s.InsertionCommutes p.id a.id := by
  intro x
  obtain ⟨below, hsub, -⟩ := h.subtree? ha
  obtain ⟨below', hsub', -⟩ := h.subtree? hp
  have hfresh : (o.fresh x).id ≠ a.id := fun heq =>
    absurd (h.fresh a.id (h.id_mem ha)) (heq ▸ Nat.lt_irrefl o.nextId)
  have hlater : (o.place x p.id).grove.subtree? a.id = some ⟨a.item, below⟩ := by
    have hnot : p.id ∉ below.ids := fun hmem => hunder ⟨_, hsub, hmem⟩
    rw [Outline.grove_place, Grove.subtree?_insertUnder hfresh, hsub, Option.map_some,
      Tree.insertUnder, Grove.insertUnder_of_notMem hnot]
    exact congrArg some (if_neg hne.symm ▸ rfl)
  have hstays : p.id ∈ (o.remove a.id).ids := by
    rw [Outline.ids, Outline.grove_remove]
    exact Grove.id_mem_of_subtree? (Grove.subtree?_remove h.nodup hsub' hne hunder)
  obtain ⟨first, second, t, hedits, hfirst, hsecond, hdraws⟩ :=
    exists_editBoth h (Outline.edit_insert (h.id_mem hp) x) (Outline.edit_delete hlater)
  obtain ⟨first', second', t', hedits', hfirst', hsecond', hdraws'⟩ :=
    exists_editBoth h (Outline.edit_delete hsub) (Outline.edit_insert hstays x)
  rw [Outline.remove_place x p.id (h.id_mem ha) h.fresh] at hdraws
  obtain rfl := hdraws.unique hdraws'
  obtain ⟨new, rfl, hnew⟩ := Reply.exists_stored_of_item hfirst
  obtain ⟨new', rfl, hnew'⟩ := Reply.exists_stored_of_item hsecond'
  rw [Reply.eq_removed_of_item hsecond] at hedits
  rw [Reply.eq_removed_of_item hfirst'] at hedits'
  refine ⟨new, new', _, t, hedits, hedits', ?_, ?_⟩
  · rw [hnew, h.nextId]
    rfl
  · rw [hnew', h.nextId]
    rfl

private theorem deletionAbsorbs (h : s.table.Draws o) {a b : Row} (ha : a ∈ s.table.rows)
    (hb : b ∈ s.table.rows) (hunder : o.grove.Under a.id b.id) : s.DeletionAbsorbs a.id b.id := by
  obtain ⟨below, hsub, -⟩ := h.subtree? ha
  obtain ⟨below', hsub', -⟩ := h.subtree? hb
  have hinside := (h.under_iff ha hb).mp hunder
  have hne : a.id ≠ b.id := fun hid => by
    rw [List.inj_on_of_nodup_map s.table.nodup_ids ha hb hid] at hinside
    exact Int.lt_irrefl _ hinside.1
  have hnot : ¬o.grove.Under b.id a.id := fun hunder' => by
    have hinside' := (h.under_iff hb ha).mp hunder'
    omega
  have hlater := Grove.subtree?_remove h.nodup hsub hne hnot
  have hnodup : (o.grove.remove b.id).ids.Nodup :=
    h.nodup.sublist ((Grove.items_remove_sublist o.grove b.id).map _)
  have habsorb := Outline.remove_remove_of_under h.nodup hunder
  have hcount : below.size + 1 = below'.size + 1 + ((below.remove b.id).size + 1) := by
    have hsize := Grove.size_remove h.nodup hsub
    have hfirst := Grove.size_remove h.nodup hsub'
    have hsecond := Grove.size_remove hnodup hlater
    rw [← Outline.grove_remove, ← Outline.grove_remove, habsorb, Outline.grove_remove,
      Outline.grove_remove] at hsecond
    dsimp only at hsize hfirst hsecond
    omega
  rw [← Outline.grove_remove] at hlater
  obtain ⟨first, second, t, hedits, hfirst, hsecond, hdraws⟩ :=
    exists_editBoth h (Outline.edit_delete hsub') (Outline.edit_delete hlater)
  obtain ⟨reply, t', hedit, hreply, hdraws'⟩ := exists_edit_ok h (Outline.edit_delete hsub)
  rw [habsorb] at hdraws
  obtain rfl := hdraws.unique hdraws'
  rw [Reply.eq_removed_of_item hfirst, Reply.eq_removed_of_item hsecond] at hedits
  rw [Reply.eq_removed_of_item hreply] at hedit
  refine ⟨_, _, t, hedits, ?_⟩
  rw [hedit]
  dsimp only
  rw [hcount]

end Store

/-- How changes at two nodes of a tree go together: what can be made in either order, and what is
lost without a trace. -/
structure Store.GoTogether (s : Store) (g : Grove Item) (a b : NodeId) : Prop where
  insertions : s.InsertionsCommute a b
  insertion : ¬g.Under a b → s.InsertionCommutes b a
  deletions : ¬g.Under a b → ¬g.Under b a → s.DeletionsCommute a b
  absorbed : g.Under a b → s.DeletionAbsorbs a b

/-- Changes of a sound table that do not depend on each other may be made in either order: two
insertions, two deletions of which none takes out the other's node, and an insertion and a deletion
that does not take out the parent. And a deletion takes out whatever is left below its node: what
went from there before makes no difference. Sound is every table that commands lead to if its rows
pass the check. -/
theorem independent_edits_commute :
    (∀ s : Store, s.table.Sound → ∃ o : Outline, s.table.Draws o ∧
      ∀ a ∈ s.table.rows, ∀ b ∈ s.table.rows, a.id ≠ b.id → s.GoTogether o.grove a.id b.id) ∧
    ∀ (first second : Settings) (commands : List (Bool × Session.Command)) (summary : Summary),
      let t := ((Session.start first second).finish commands).store.table
      Numbering.check t.rows = .ok summary → t.Sound := by
  refine ⟨fun s h => ?_, fun first second commands summary =>
    Session.sound_of_check first second commands⟩
  obtain ⟨o, ho⟩ := Table.sound_iff_draws.mp h
  refine ⟨o, ho, fun a ha b hb hne => ?_⟩
  constructor
  · exact Store.insertionsCommute ho ha hb (fun heq => hne (congrArg Row.id heq))
  · exact Store.insertionCommutes ho hb ha hne.symm
  · exact Store.deletionsCommute ho ha hb hne
  · exact Store.deletionAbsorbs ho ha hb

/-- The first node below the root, which has a node below it, and the second, which has none; and a
root that one command stored. -/
theorem independent_edits_commute_four_nodes :
    let s : Store := ⟨Table.fourNodes, ⟨4⟩⟩
    let t := ((Session.start .default .default).finish
      [(false, .insertRoot Dict.empty)]).store.table
    s.table.Sound ∧ s.InsertionsCommute ⟨2⟩ ⟨3⟩ ∧ s.InsertionCommutes ⟨3⟩ ⟨2⟩ ∧
      s.DeletionsCommute ⟨2⟩ ⟨3⟩ ∧ s.DeletionAbsorbs ⟨2⟩ ⟨4⟩ ∧
      Numbering.check t.rows = .ok ⟨1, 1, 0⟩ ∧ t.Sound := by
  intro s t
  obtain ⟨o, ho, htogether⟩ := independent_edits_commute.1 s Table.sound_fourNodes
  have h₂ : ⟨⟨2⟩, ⟨2, 5, 1⟩, Dict.empty⟩ ∈ s.table.rows := by decide
  have h₃ : ⟨⟨3⟩, ⟨6, 7, 1⟩, Dict.empty⟩ ∈ s.table.rows := by decide
  have h₄ : ⟨⟨4⟩, ⟨3, 4, 2⟩, Dict.empty⟩ ∈ s.table.rows := by decide
  have h₂₃ := htogether _ h₂ _ h₃ (by decide)
  have h₂₄ := htogether _ h₂ _ h₄ (by decide)
  have hnot₂₃ : ¬o.grove.Under ⟨2⟩ ⟨3⟩ := (ho.under_iff h₂ h₃).not.mpr (by decide)
  have hnot₃₂ : ¬o.grove.Under ⟨3⟩ ⟨2⟩ := (ho.under_iff h₃ h₂).not.mpr (by decide)
  have hunder₂₄ : o.grove.Under ⟨2⟩ ⟨4⟩ := (ho.under_iff h₂ h₄).mpr (by decide)
  exact ⟨Table.sound_fourNodes, h₂₃.insertions, h₂₃.insertion hnot₂₃,
    h₂₃.deletions hnot₂₃ hnot₃₂, h₂₄.absorbed hunder₂₄, Table.check_loneRoot,
    independent_edits_commute.2 .default .default [(false, .insertRoot Dict.empty)] _
      Table.check_loneRoot⟩

end FlatTree
