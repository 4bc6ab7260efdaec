import FlatTree.Proofs.Commutation

/-!
# Changes that undo each other

A new node has nothing below it, so it can be taken out again, and the gap that is closed then is
the one that was opened for it. Nothing is left of it but the identity it had. The other way round
this holds of a node that a new one would be put in the place of: one without nodes below it that
is the last child of its parent.
-/

namespace FlatTree

/-- A bound that does not lie in a gap is where it was when the gap was closed and is opened
again. -/
theorem Shift.bound_reopen {l x : Int} (h : x < l ∨ l + 2 ≤ x) :
    (Shift.opening l).bound ((Shift.mk l (-2)).bound x) = x := by
  simp only [opening, bound]
  split_ifs <;> omega

theorem Shift.apply_reopen {l : Int} {i : Interval} (hleft : i.left < l ∨ l + 2 ≤ i.left)
    (hright : i.right < l ∨ l + 2 ≤ i.right) :
    (Shift.opening l).apply ((Shift.mk l (-2)).apply i) = i := by
  simp only [apply, bound_reopen hleft, bound_reopen hright]

/-! ## On trees -/

namespace Grove

variable {g : Grove Item} {x : Item} {i : Interval} {d : Nat} {c : Int}

private theorem remove_snoc_self (g : Grove Item) (x : Item) :
    (g.snoc x).remove x.id = g.remove x.id := by
  induction g with
  | nil => simp only [snoc, remove, if_true]
  | cons n below after _ iha =>
    by_cases hn : n.id = x.id
    · simp only [snoc, remove, if_pos hn, iha]
    · simp only [snoc, remove, if_neg hn, iha]

/-- Taking out a node that was not there before leaves what was there. -/
theorem remove_insertUnder_self (h : x.id ∉ g.ids) (p : NodeId) :
    (g.insertUnder p x).remove x.id = g := by
  induction g with
  | nil => rfl
  | cons n below after ihb iha =>
    simp only [ids_cons, List.mem_cons, List.mem_append, not_or] at h
    have hbelow : (if n.id = p then (below.insertUnder p x).snoc x
        else below.insertUnder p x).remove x.id = below := by
      split
      · rw [remove_snoc_self, ihb h.2.1]
      · exact ihb h.2.1
    simp only [insertUnder, remove, if_neg (Ne.symm h.1), hbelow, iha h.2.2]

private theorem subtree?_snoc_self (h : x.id ∉ g.ids) :
    (g.snoc x).subtree? x.id = some ⟨x, .nil⟩ := by
  induction g with
  | nil => simp only [snoc, subtree?, if_true]
  | cons n below after _ iha =>
    simp only [ids_cons, List.mem_cons, List.mem_append, not_or] at h
    rw [snoc, subtree?, if_neg (Ne.symm h.1), subtree?_eq_none_iff.mpr h.2.1, Option.none_or,
      iha h.2.2]

/-- A node that was not there before has nothing below it. -/
theorem subtree?_insertUnder_self {p : NodeId} (hn : g.ids.Nodup) (h : x.id ∉ g.ids)
    (hp : p ∈ g.ids) : (g.insertUnder p x).subtree? x.id = some ⟨x, .nil⟩ := by
  induction g with
  | nil => cases hp
  | cons n below after ihb iha =>
    obtain ⟨-, -, hnb, hna, -⟩ := nodup_ids_cons.mp hn
    have hplace := mem_ids_cons_cases hn hp
    simp only [ids_cons, List.mem_cons, List.mem_append, not_or] at h
    rw [insertUnder, subtree?, if_neg (Ne.symm h.1)]
    rcases hplace with ⟨rfl, hb, ha⟩ | ⟨hp, hne, ha⟩ | ⟨hp, hne, hb⟩
    · rw [if_pos rfl, insertUnder_of_notMem hb, subtree?_snoc_self h.2.1, Option.some_or]
    · rw [if_neg hne, ihb hnb h.2.1 hp, Option.some_or]
    · rw [if_neg hne, insertUnder_of_notMem hb, subtree?_eq_none_iff.mpr h.2.1, Option.none_or,
        iha hna h.2.2 hp]

private theorem roots_subset_items {α : Type} (g : Grove α) : g.roots ⊆ g.items := by
  induction g with
  | nil => exact List.Subset.refl _
  | cons a below after _ iha =>
    exact List.cons_subset_cons a (List.Subset.trans iha (List.subset_append_right ..))

/-- The last tree of a grove ends where the grove does. -/
theorem bounds_of_last_root (hn : g.ids.Nodup) (hlast : g.roots.getLast? = some x)
    (h : (x, i) ∈ g.tour d c) : i.right + 1 = g.stop c ∧ i.depth = d := by
  induction g generalizing d c with
  | nil => cases h
  | cons a below after _ iha =>
    obtain ⟨hab, haa, hnb, hna, hdis⟩ := nodup_ids_cons.mp hn
    rw [stop]
    cases after with
    | nil =>
      obtain rfl : a = x := by simpa [roots] using hlast
      rcases mem_tour_cons_cases hn h with ⟨-, rfl, -⟩ | ⟨-, hid, hne, -⟩ | ⟨-, hid, -⟩
      · exact ⟨rfl, rfl⟩
      · exact absurd rfl hne
      · cases hid
    | cons b below' after' =>
      have hlast' : (cons b below' after').roots.getLast? = some x := by
        rwa [roots, roots, List.getLast?_cons_cons] at hlast
      have hid : x.id ∈ (cons b below' after').ids :=
        mem_ids.mpr ⟨x, roots_subset_items _ (List.mem_of_getLast? hlast'), rfl⟩
      rcases mem_tour_cons_cases hn h with ⟨-, -, -, hnot⟩ | ⟨-, -, -, hnot⟩ | ⟨h, -⟩
      · exact absurd hid hnot
      · exact absurd hid hnot
      · exact iha hna hlast' h

end Grove

/-- A last child ends right before its parent does. -/
theorem Table.Draws.bounds_of_last_child {t : Table} {o : Outline} {a p : Row} (h : t.Draws o)
    (ha : a ∈ t.rows) (hp : p ∈ t.rows)
    (hlast : (o.grove.childrenOf p.id).getLast? = some a.item) :
    a.interval.right + 1 = p.interval.right ∧ a.interval.depth = p.interval.depth + 1 := by
  obtain ⟨below, hsub, hwidth⟩ := h.subtree? hp
  rw [Grove.childrenOf_of_subtree? h.nodup hsub] at hlast
  have hid : a.id ∈ below.ids := Grove.mem_ids.mpr
    ⟨a.item, Grove.roots_subset_items below (List.mem_of_getLast? hlast), rfl⟩
  have hinside := (Table.id_mem_below_iff h.rows hp ha hsub).mp hid
  have hmem : (a.item, a.interval) ∈
      below.tour (p.interval.depth + 1) (p.interval.left + 1) := by
    rw [← Grove.filter_inside_tour h.nodup (h.mem hp) hsub]
    exact List.mem_filter.mpr ⟨h.mem ha, Filter.accepts_inside_iff.mpr hinside⟩
  have hnodup : below.ids.Nodup := h.nodup.sublist (Grove.ids_below_sublist hsub)
  obtain ⟨hright, hdepth⟩ := Grove.bounds_of_last_root hnodup hlast hmem
  rw [Grove.stop_eq] at hright
  exact ⟨by omega, hdepth⟩

theorem Table.Draws.right_of_leaf {t : Table} {o : Outline} {a : Row} (h : t.Draws o)
    (ha : a ∈ t.rows) (hleaf : o.grove.subtree? a.id = some ⟨a.item, .nil⟩) :
    a.interval.right = a.interval.left + 1 := by
  obtain ⟨below, hsub, hwidth⟩ := h.subtree? ha
  rw [hleaf] at hsub
  cases hsub
  exact hwidth.trans (Int.add_zero _)

/-- The gap of a last child with nothing below it, once closed, is opened again for a new child of
its parent. -/
theorem Table.Draws.exists_refill {t : Table} {o : Outline} {a p : Row} (h : t.Draws o)
    (ha : a ∈ t.rows) (hp : p ∈ t.rows) (hleaf : o.grove.subtree? a.id = some ⟨a.item, .nil⟩)
    (hlast : (o.grove.childrenOf p.id).getLast? = some a.item) :
    ∃ p' ∈ (t.takeOut a).rows, p'.id = p.id ∧
      ((t.takeOut a).placeUnder a.attributes p').1 =
        ⟨⟨t.nextId⟩, a.interval, a.attributes⟩ ∧
      ((t.takeOut a).placeUnder a.attributes p').2.rows =
        t.rows.filter (·.id ≠ a.id) ++ [⟨⟨t.nextId⟩, a.interval, a.attributes⟩] := by
  obtain ⟨hright, hdepth⟩ := h.bounds_of_last_child ha hp hlast
  have hwidth := h.right_of_leaf ha hleaf
  have hspan : a.interval.span = 2 := by
    rw [Interval.span]
    omega
  have hclosed := Table.rows_takeOut h.rows ha hleaf
  simp only [hspan, Grove.ids_nil, List.mem_singleton] at hclosed
  have hend : (Shift.mk a.interval.left (-2)).bound p.interval.right = a.interval.left := by
    rw [Shift.bound_of_le (by dsimp only; omega)]
    dsimp only
    omega
  have hplace : (Row.moved ⟨a.interval.left, -2⟩ p).interval.lastChild = a.interval := by
    rw [Interval.lastChild, Row.moved, Shift.apply, hend, ← hdepth, ← hwidth]
  have hnew : ((t.takeOut a).placeUnder a.attributes (Row.moved ⟨a.interval.left, -2⟩ p)).1 =
      ⟨⟨t.nextId⟩, a.interval, a.attributes⟩ :=
    congrArg (Row.mk ⟨t.nextId⟩ · a.attributes) hplace
  -- no bound of another row lies in the gap, so all of them come back to where they were
  have hkept : ∀ r ∈ t.rows.filter (·.id ≠ a.id),
      (Row.moved (Shift.opening a.interval.left) ∘ Row.moved ⟨a.interval.left, -2⟩) r = r := by
    intro r hr
    obtain ⟨hr, hne⟩ := List.mem_filter.mp hr
    have hnot : r.id ∉ a.id :: Grove.nil.ids := by simpa using hne
    have hr' := Table.bounds_of_mem h.rows hr
    have hbeside := Table.beside_of_notMem h.rows ha hr hleaf hnot
    have hsame : (Shift.opening a.interval.left).apply
        ((Shift.mk a.interval.left (-2)).apply r.interval) = r.interval :=
      Shift.apply_reopen (by omega) (by omega)
    simp only [Function.comp_apply, Row.moved, hsame]
  refine ⟨Row.moved ⟨a.interval.left, -2⟩ p, ?_, rfl, hnew, ?_⟩
  · rw [hclosed]
    apply List.mem_map_of_mem
    refine List.mem_filter.mpr ⟨hp, decide_eq_true fun hid => ?_⟩
    rw [List.inj_on_of_nodup_map t.nodup_ids hp ha hid] at hright
    omega
  · rw [Table.rows_placeUnder (fun r hr => (h.remove ha).lt_nextId hr), hnew, hclosed,
      List.map_map, show (Row.moved ⟨a.interval.left, -2⟩ p).interval.right = a.interval.left
        from hend, List.map_congr_left hkept, List.map_id']

namespace Outline

variable {o o' : Outline} {e : Edit} {x : Item}

private theorem edit_delete_leaf (h : o.grove.subtree? x.id = some ⟨x, .nil⟩)
    (withDescendants : Bool) :
    o.edit (.delete x.id withDescendants) = (.ok (.removed 1), o.remove x.id) := by
  simp only [edit, delete, h, Grove.size, ne_eq, not_true, false_and, if_false]
  rfl

/-- A node is stored under one that is there, or alone. -/
theorem edit_stored_cases (h : o.edit e = (.ok (.stored x), o')) :
    x = o.fresh x.attributes ∧ ((∃ p ∈ o.ids, o' = o.place x.attributes p) ∨
      (o.tree = none ∧ o' = o.plant x.attributes)) := by
  cases e with
  | insert attributes parent =>
    cases parent with
    | some p =>
      by_cases hp : p ∈ o.ids
      · rw [edit_insert hp] at h
        cases h
        exact ⟨rfl, .inl ⟨p, hp, rfl⟩⟩
      · simp only [edit, insert, if_neg hp] at h
        cases h
    | none =>
      obtain ⟨_ | t, n⟩ := o
      · cases h
        exact ⟨rfl, .inr ⟨rfl, rfl⟩⟩
      · cases h
        exact ⟨rfl, .inl ⟨t.root.id, List.mem_cons_self, rfl⟩⟩
  | insertRoot attributes =>
    obtain ⟨_ | t, n⟩ := o
    · cases h
      exact ⟨rfl, .inr ⟨rfl, rfl⟩⟩
    · cases h
  | delete id withDescendants =>
    rw [edit] at h
    generalize o.kept (o.delete id withDescendants) = r at h
    obtain ⟨_ | n, o''⟩ := r <;> cases h

/-- What was stored can be taken out, and was all that changed. -/
theorem remove_stored (hn : o.ids.Nodup) (hfresh : ∀ id ∈ o.ids, id.val < o.nextId)
    (h : o.edit e = (.ok (.stored x), o')) :
    o'.grove.subtree? x.id = some ⟨x, .nil⟩ ∧ (o'.remove x.id).grove = o.grove ∧
      o'.nextId = o.nextId + 1 := by
  obtain ⟨hx, hcases⟩ := edit_stored_cases h
  have hnot : x.id ∉ o.grove.ids := fun hmem => by
    have hlt := hfresh x.id hmem
    rw [hx] at hlt
    exact Nat.lt_irrefl o.nextId hlt
  rw [grove_remove]
  rcases hcases with ⟨p, hp, rfl⟩ | ⟨hnone, rfl⟩
  · rw [grove_place, ← hx]
    exact ⟨Grove.subtree?_insertUnder_self hn hnot hp, Grove.remove_insertUnder_self hnot p, rfl⟩
  · obtain ⟨tree, n⟩ := o
    cases hnone
    rw [grove_plant, ← hx]
    exact ⟨Grove.subtree?_snoc_self hnot, Grove.remove_snoc_self .nil x, rfl⟩

end Outline

/-! ## Of a store -/

namespace Store

variable {s s' : Store} {o : Outline} {e : Edit}

/-- A new node can be taken out, and nothing else is left of it than that its number is taken and
two more commits were made. -/
theorem delete_stored (h : s.table.Draws o) {r : Row} (he : s.edit e = (.ok (.stored r), s')) :
    ∃ t, s'.edit (.delete r.id false) = (.ok (.removed 1), ⟨t, s.version.next.next⟩) ∧
      t.rows = s.table.rows ∧ t.nextId = s.table.nextId + 1 := by
  obtain ⟨hagree, hdraws⟩ := edit_agrees h e
  have hversion := allOrNothing_edit s e
  rcases ho : o.edit e with ⟨_ | b, o'⟩
  · rw [he, ho] at hagree
    cases hagree
  · rw [he, ho] at hagree hdraws
    rw [he] at hversion
    cases b with
    | removed n => cases hagree
    | stored x =>
      obtain rfl : r.item = x := hagree.2
      obtain ⟨hsub, hgrove, hnext⟩ := Outline.remove_stored h.nodup h.fresh ho
      have hdelete := Outline.edit_delete_leaf hsub false
      obtain ⟨reply, t, hedit, hreply, hdraws'⟩ := exists_edit_ok hdraws hdelete
      rw [Reply.eq_removed_of_item hreply, hversion] at hedit
      refine ⟨t, hedit, ?_, ?_⟩
      · apply Table.rows_eq_of_perm hdraws'.rows
        rw [Outline.rows, hgrove]
        exact h.rows
      · rw [h.nextId, hdraws'.nextId]
        exact hnext

/-- Taking a node out and storing its attributes under its parent puts a new node in its place,
and changes nothing else. -/
def Replaces (s : Store) (a : Row) (p : NodeId) : Prop :=
  ∀ withDescendants, ∃ t,
    s.editBoth (.delete a.id withDescendants) (.insert a.attributes (some p)) =
        .ok (.removed 1, .stored ⟨⟨s.table.nextId⟩, a.interval, a.attributes⟩,
          ⟨t, s.version.next.next⟩) ∧
      t.rows = s.table.rows.filter (·.id ≠ a.id) ++
        [⟨⟨s.table.nextId⟩, a.interval, a.attributes⟩]

private theorem replaces (h : s.table.Draws o) {a p : Row} (ha : a ∈ s.table.rows)
    (hp : p ∈ s.table.rows) (hleaf : o.grove.subtree? a.id = some ⟨a.item, .nil⟩)
    (hlast : (o.grove.childrenOf p.id).getLast? = some a.item) : s.Replaces a p.id := by
  intro withDescendants
  obtain ⟨p', hp', hid, hnew, hrows⟩ := h.exists_refill ha hp hleaf hlast
  refine ⟨((s.table.takeOut a).placeUnder a.attributes p').2, ?_, hrows⟩
  have hdelete : s.edit (.delete a.id withDescendants) =
      (.ok (.removed 1), ⟨s.table.takeOut a, s.version.next⟩) := by
    rw [edit, delete_of_mem h ha hleaf, if_neg (fun hkeep => hkeep.1 rfl)]
    rfl
  have hinsert : (Store.mk (s.table.takeOut a) s.version.next).edit
      (.insert a.attributes (some p.id)) =
        (.ok (.stored ⟨⟨s.table.nextId⟩, a.interval, a.attributes⟩),
          ⟨((s.table.takeOut a).placeUnder a.attributes p').2, s.version.next.next⟩) := by
    rw [← hnew, edit, ← hid, insert_of_mem hp']
    rfl
  rw [editBoth, hdelete]
  dsimp only
  rw [hinsert]
  rfl

end Store

/-- In a sound table, which every table that commands lead to is if its rows pass the check, any
node that was just stored can be taken out without what is below it, which leaves the rows that
were there before; and a last child with nothing below it that is taken out and stored again is
where it was, under a fresh identity. -/
theorem insertions_and_deletions_undo_each_other :
    (∀ s : Store, s.table.Sound → ∀ e r s', s.edit e = (.ok (.stored r), s') →
      ∃ t, s'.edit (.delete r.id false) = (.ok (.removed 1), ⟨t, s.version.next.next⟩) ∧
        t.rows = s.table.rows ∧ t.nextId = s.table.nextId + 1) ∧
    (∀ s : Store, s.table.Sound → ∃ o : Outline, s.table.Draws o ∧
      ∀ a ∈ s.table.rows, ∀ p ∈ s.table.rows, o.grove.subtree? a.id = some ⟨a.item, .nil⟩ →
        (o.grove.childrenOf p.id).getLast? = some a.item → s.Replaces a p.id) ∧
    ∀ (first second : Settings) (commands : List (Bool × Session.Command)) (summary : Summary),
      let t := ((Session.start first second).finish commands).store.table
      Numbering.check t.rows = .ok summary → t.Sound := by
  refine ⟨fun s h e r s' he => ?_, fun s h => ?_, fun first second commands summary =>
    Session.sound_of_check first second commands⟩
  · obtain ⟨o, ho⟩ := Table.sound_iff_draws.mp h
    exact Store.delete_stored ho he
  · obtain ⟨o, ho⟩ := Table.sound_iff_draws.mp h
    refine ⟨o, ho, fun a ha p hp hleaf hlast => ?_⟩
    exact Store.replaces ho ha hp hleaf hlast

/-- A node stored under the second one below the root and taken out again, the only one below the
first taken out and stored again, and a root that one command stored. -/
theorem insertions_and_deletions_undo_each_other_four_nodes :
    let s : Store := ⟨Table.fourNodes, ⟨4⟩⟩
    let s' : Store := (s.edit (.insert Dict.empty (some ⟨3⟩))).2
    let t := ((Session.start .default .default).finish
      [(false, .insertRoot Dict.empty)]).store.table
    s.table.Sound ∧
      s.edit (.insert Dict.empty (some ⟨3⟩)) =
        (.ok (.stored ⟨⟨5⟩, ⟨7, 8, 2⟩, Dict.empty⟩), s') ∧
      (∃ t, s'.edit (.delete ⟨5⟩ false) = (.ok (.removed 1), ⟨t, ⟨6⟩⟩) ∧
        t.rows = s.table.rows ∧ t.nextId = 6) ∧
      s.Replaces ⟨⟨4⟩, ⟨3, 4, 2⟩, Dict.empty⟩ ⟨2⟩ ∧
      Numbering.check t.rows = .ok ⟨1, 1, 0⟩ ∧ t.Sound := by
  intro s s' t
  have hsound : s.table.Sound := Table.sound_fourNodes
  have h₂ : ⟨⟨2⟩, ⟨2, 5, 1⟩, Dict.empty⟩ ∈ s.table.rows := by decide
  have h₄ : ⟨⟨4⟩, ⟨3, 4, 2⟩, Dict.empty⟩ ∈ s.table.rows := by decide
  have hedit : s.edit (.insert Dict.empty (some ⟨3⟩)) =
      (.ok (.stored ⟨⟨5⟩, ⟨7, 8, 2⟩, Dict.empty⟩), s') := rfl
  obtain ⟨o, ho, hreplaces⟩ := insertions_and_deletions_undo_each_other.2.1 s hsound
  have hleaf : o.grove.subtree? ⟨4⟩ = some ⟨⟨⟨4⟩, Dict.empty⟩, .nil⟩ := by
    obtain ⟨below, hsub, hwidth⟩ := ho.subtree? h₄
    obtain rfl : below = .nil := (Grove.size_eq_zero_iff below).mp (by dsimp only at hwidth; omega)
    exact hsub
  have hchildren : o.grove.childrenOf ⟨2⟩ = [⟨⟨4⟩, Dict.empty⟩] := by
    obtain ⟨below, hsub, -⟩ := ho.subtree? h₂
    have hlist := Table.map_childrenOf_default ho.rows h₂ hsub true
    have hrows : s.table.childrenOf (Settings.default.orderOr []) ⟨2⟩ true =
        .ok [⟨⟨4⟩, ⟨3, 4, 2⟩, Dict.empty⟩] := by decide +kernel
    rw [hrows] at hlist
    exact (Except.ok.inj hlist).symm
  exact ⟨hsound, hedit, insertions_and_deletions_undo_each_other.1 s hsound _ _ s' hedit,
    hreplaces _ h₄ _ h₂ hleaf (congrArg List.getLast? hchildren), Table.check_loneRoot,
    insertions_and_deletions_undo_each_other.2.2 .default .default
      [(false, .insertRoot Dict.empty)] _ Table.check_loneRoot⟩

end FlatTree
