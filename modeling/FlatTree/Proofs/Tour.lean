import FlatTree.Filter
import FlatTree.Proofs.Grove

/-!
# The numbering of a tree

One count runs through a tree: each node takes a number on the way in, then the nodes below it take
theirs, and it takes another on the way out. The two numbers are its bounds, and together with its
level they are its interval. Stated here are the two ways in which intervals can lie to each other,
and what an insertion and a removal do to all of them: both move every bound from some number on by
one distance.
-/

namespace FlatTree

namespace Shift

variable {s : Shift} {i : Interval}

theorem apply_of_lt (hl : i.left < s.start) (hr : i.right < s.start) : s.apply i = i := by
  simp [apply, bound_of_lt hl, bound_of_lt hr]

theorem apply_of_le (hl : s.start ≤ i.left) (hr : s.start ≤ i.right) :
    s.apply i = ⟨i.left + s.delta, i.right + s.delta, i.depth⟩ := by
  simp [apply, bound_of_le hl, bound_of_le hr]

/-- An interval in which the shift begins is stretched. -/
theorem apply_of_lt_of_le (hl : i.left < s.start) (hr : s.start ≤ i.right) :
    s.apply i = ⟨i.left, i.right + s.delta, i.depth⟩ := by
  simp [apply, bound_of_lt hl, bound_of_le hr]

/-- A shift of the interval of a label. -/
def label {α : Type} (s : Shift) (e : α × Interval) : α × Interval :=
  (e.1, s.apply e.2)

end Shift

namespace Grove

variable {α : Type} {g : Grove α} {d : Nat} {c : Int} {e : α × Interval}

/-- The next number after all nodes took theirs, when the first one takes `c`. -/
def stop (c : Int) : Grove α → Int
  | nil => c
  | cons _ below after => after.stop (below.stop (c + 1) + 1)

/-- The labels and their intervals, for a grove whose first level is `d` and whose first number is
`c`. -/
def tour (d : Nat) (c : Int) : Grove α → List (α × Interval)
  | nil => []
  | cons a below after =>
    (a, ⟨c, below.stop (c + 1), d⟩) ::
      (below.tour (d + 1) (c + 1) ++ after.tour d (below.stop (c + 1) + 1))

theorem stop_eq (g : Grove α) (c : Int) : g.stop c = c + 2 * g.size := by
  induction g generalizing c with
  | nil => simp [stop, size]
  | cons a below after ihb iha =>
    simp only [stop, size, ihb, iha]
    omega

@[simp] theorem map_fst_tour (g : Grove α) (d : Nat) (c : Int) :
    (g.tour d c).map Prod.fst = g.items := by
  induction g generalizing d c with
  | nil => rfl
  | cons a below after ihb iha => simp [tour, items, ihb, iha]

@[simp] theorem length_tour (g : Grove α) (d : Nat) (c : Int) : (g.tour d c).length = g.size := by
  rw [← length_items, ← map_fst_tour g d c, List.length_map]

theorem mem_tour_cons {a : α} {below after : Grove α} :
    e ∈ (cons a below after).tour d c ↔
      e = (a, ⟨c, below.stop (c + 1), d⟩) ∨ e ∈ below.tour (d + 1) (c + 1) ∨
        e ∈ after.tour d (below.stop (c + 1) + 1) := by
  simp [tour]

theorem mem_items_of_mem_tour (h : e ∈ g.tour d c) : e.1 ∈ g.items := by
  rw [← map_fst_tour g d c]
  exact List.mem_map_of_mem h

/-- The numbers of a grove are those from `c` up to `stop`, and its levels start at `d`. -/
theorem bounds_of_mem_tour (h : e ∈ g.tour d c) :
    c ≤ e.2.left ∧ e.2.left < e.2.right ∧ e.2.right < g.stop c ∧ d ≤ e.2.depth := by
  induction g generalizing d c with
  | nil => cases h
  | cons a below after ihb iha =>
    have hb := stop_eq below (c + 1)
    have ha := stop_eq after (below.stop (c + 1) + 1)
    simp only [stop]
    rcases mem_tour_cons.mp h with rfl | h | h
    · dsimp only
      omega
    · have := ihb h
      omega
    · have := iha h
      omega

/-- No level lies beyond the height. -/
theorem depth_lt_of_mem_tour (h : e ∈ g.tour d c) : e.2.depth < d + g.height := by
  induction g generalizing d c with
  | nil => cases h
  | cons a below after ihb iha =>
    rw [height]
    rcases mem_tour_cons.mp h with rfl | h | h
    · dsimp only
      omega
    · have := ihb h
      omega
    · have := iha h
      omega

/-- On the last level there is a node. -/
theorem exists_deepest (h : g ≠ nil) (d : Nat) (c : Int) :
    ∃ e ∈ g.tour d c, e.2.depth + 1 = d + g.height := by
  induction g generalizing d c with
  | nil => exact absurd rfl h
  | cons a below after ihb iha =>
    rw [height]
    by_cases hle : after.height ≤ below.height + 1
    · rw [Nat.max_eq_left hle]
      cases below with
      | nil => exact ⟨_, mem_tour_cons.mpr (.inl rfl), rfl⟩
      | cons b below' after' =>
        obtain ⟨e, he, hdepth⟩ := ihb (nomatch ·) (d + 1) (c + 1)
        exact ⟨e, mem_tour_cons.mpr (.inr (.inl he)), by omega⟩
    · rw [Nat.max_eq_right (by omega)]
      have hafter : after ≠ nil := fun hnil => hle (by rw [hnil]; exact Nat.zero_le _)
      obtain ⟨e, he, hdepth⟩ := iha hafter d (below.stop (c + 1) + 1)
      exact ⟨e, mem_tour_cons.mpr (.inr (.inr he)), hdepth⟩

theorem bounds_of_mem_map_tour {i : Interval} (h : i ∈ (g.tour d c).map Prod.snd) :
    c ≤ i.left ∧ i.left < i.right ∧ i.right < g.stop c := by
  obtain ⟨e, he, rfl⟩ := List.mem_map.mp h
  have := bounds_of_mem_tour he
  omega

theorem stop_of_tour_eq {es : List (α × Interval)} (h : g.tour d c = es) :
    g.stop c = c + 2 * es.length := by
  rw [stop_eq, ← length_tour g d c, h]

/-- Of two nodes, the first in the tour either encloses the other or ends before it begins. -/
def Apart (a b : Interval) : Prop :=
  (a.left < b.left ∧ b.right < a.right ∧ a.depth < b.depth) ∨ a.right < b.left

theorem pairwise_tour (g : Grove α) (d : Nat) (c : Int) :
    (g.tour d c).Pairwise fun a b => Apart a.2 b.2 := by
  induction g generalizing d c with
  | nil => exact .nil
  | cons a below after ihb iha =>
    refine List.pairwise_cons.mpr ⟨fun e he => ?_, List.pairwise_append.mpr ⟨ihb _ _, iha _ _, ?_⟩⟩
    · rcases List.mem_append.mp he with he | he
      · have := bounds_of_mem_tour he
        exact .inl (by dsimp only; omega)
      · have := bounds_of_mem_tour he
        exact .inr (by dsimp only; omega)
    · intro e he e' he'
      have hb := bounds_of_mem_tour he
      have ha := bounds_of_mem_tour he'
      exact .inr (by omega)

private theorem left_lt_of_apart {a b : Interval} (h : Apart a b) (ha : a.left < a.right) :
    a.left < b.left := by
  rcases h with h | h
  · exact h.1
  · omega

/-- The tour lists the nodes by their left bounds. -/
theorem lefts_tour (g : Grove α) (d : Nat) (c : Int) :
    (g.tour d c).Pairwise fun a b => a.2.left < b.2.left :=
  (pairwise_tour g d c).imp_of_mem fun ha _ h =>
    left_lt_of_apart h (bounds_of_mem_tour ha).2.1

/-! ## Shifts -/

/-- A grove that begins where the shift does moves as a whole. -/
theorem shift_tour_of_le {s : Shift} (h : s.start ≤ c) :
    (g.tour d c).map s.label = g.tour d (c + s.delta) := by
  have hstop (below : Grove α) (c : Int) : below.stop (c + s.delta) = below.stop c + s.delta := by
    rw [stop_eq, stop_eq]
    omega
  induction g generalizing d c with
  | nil => rfl
  | cons a below after ihb iha =>
    have hb : s.start ≤ below.stop (c + 1) := by
      rw [stop_eq]
      omega
    have hc : below.stop (c + s.delta + 1) = below.stop (c + 1) + s.delta := by
      rw [← hstop, Int.add_right_comm]
    have hhead : s.label (a, ⟨c, below.stop (c + 1), d⟩) =
        (a, ⟨c + s.delta, below.stop (c + 1) + s.delta, d⟩) := by
      rw [Shift.label, Shift.apply_of_le h hb]
    simp only [tour, List.map_cons, List.map_append, hhead, hc, ihb (show s.start ≤ c + 1 by omega),
      iha (show s.start ≤ below.stop (c + 1) + 1 by omega)]
    rw [Int.add_right_comm c, Int.add_right_comm (below.stop (c + 1))]

/-- A grove that ends before the shift begins stays where it is. -/
theorem shift_tour_of_lt {s : Shift} (h : g.stop c ≤ s.start) :
    (g.tour d c).map s.label = g.tour d c := by
  conv_rhs => rw [← List.map_id (g.tour d c)]
  apply List.map_congr_left
  intro e he
  have hb := bounds_of_mem_tour he
  rw [Shift.label, Shift.apply_of_lt (by omega) (by omega), id]

theorem tour_snoc (g : Grove α) (x : α) (d : Nat) (c : Int) :
    (g.snoc x).tour d c = g.tour d c ++ [(x, ⟨g.stop c, g.stop c + 1, d⟩)] := by
  induction g generalizing c with
  | nil => simp [snoc, tour, stop]
  | cons a below after _ iha => simp [snoc, tour, stop, iha]

/-! ## Insertion and removal -/

variable {g : Grove Item} {x : Item} {i : Interval}

theorem id_mem_of_mem_tour (h : (x, i) ∈ g.tour d c) : x.id ∈ g.ids :=
  mem_ids.mpr ⟨x, mem_items_of_mem_tour h, rfl⟩

/-- A node stands in one of three places in the tour, and its identity in none of the others. -/
theorem mem_tour_cons_cases {a : Item} {below after : Grove Item}
    (hn : (cons a below after).ids.Nodup) (h : (x, i) ∈ (cons a below after).tour d c) :
    (x = a ∧ i = ⟨c, below.stop (c + 1), d⟩ ∧ x.id ∉ below.ids ∧ x.id ∉ after.ids) ∨
      ((x, i) ∈ below.tour (d + 1) (c + 1) ∧ x.id ∈ below.ids ∧ a.id ≠ x.id ∧
        x.id ∉ after.ids) ∨
        ((x, i) ∈ after.tour d (below.stop (c + 1) + 1) ∧ x.id ∈ after.ids ∧ a.id ≠ x.id ∧
          x.id ∉ below.ids) := by
  obtain ⟨hab, haa, -, -, hdis⟩ := nodup_ids_cons.mp hn
  rcases mem_tour_cons.mp h with heq | h | h
  · obtain ⟨rfl, rfl⟩ := Prod.mk.inj heq
    exact .inl ⟨rfl, rfl, hab, haa⟩
  · have hid := id_mem_of_mem_tour h
    exact .inr (.inl ⟨h, hid, fun he => hab (he ▸ hid), hdis _ hid⟩)
  · have hid := id_mem_of_mem_tour h
    exact .inr (.inr ⟨h, hid, fun he => haa (he ▸ hid), fun hb => hdis _ hb hid⟩)

/-- A new last child takes its parent's right bound, and every bound from there on is moved by
two. -/
theorem tour_insertUnder_perm (hn : g.ids.Nodup) (h : (x, i) ∈ g.tour d c) (y : Item) :
    ((g.insertUnder x.id y).tour d c).Perm
      ((y, i.lastChild) :: (g.tour d c).map (Shift.opening i.right).label) := by
  induction g generalizing d c with
  | nil => cases h
  | cons a below after ihb iha =>
    obtain ⟨-, -, hnb, hna, -⟩ := nodup_ids_cons.mp hn
    rcases mem_tour_cons_cases hn h with
      ⟨rfl, rfl, hxb, hxa⟩ | ⟨h, hid, hne, hxa⟩ | ⟨h, -, hne, hxb⟩
    · have hc : c < below.stop (c + 1) := by
        rw [stop_eq]
        omega
      have hsnoc : (below.snoc y).stop (c + 1) = below.stop (c + 1) + 2 := by
        simp only [stop_eq, size_snoc]
        omega
      have hhead : (Shift.opening (below.stop (c + 1))).label (x, ⟨c, below.stop (c + 1), d⟩) =
          (x, ⟨c, below.stop (c + 1) + 2, d⟩) := by
        rw [Shift.label, Shift.apply_of_lt_of_le hc (Int.le_refl _)]
        rfl
      simp only [insertUnder, insertUnder_of_notMem hxb, insertUnder_of_notMem hxa, if_true, tour,
        tour_snoc, hsnoc, List.map_cons, List.map_append, hhead, List.append_assoc]
      rw [shift_tour_of_lt (Int.le_refl _), shift_tour_of_le (by simp only [Shift.opening]; omega),
        Int.add_right_comm]
      exact (List.perm_middle.cons _).trans (.swap ..)
    · have hb := bounds_of_mem_tour h
      dsimp only at hb
      have hstop : (below.insertUnder x.id y).stop (c + 1) = below.stop (c + 1) + 2 := by
        simp only [stop_eq, size_insertUnder hnb hid]
        omega
      have hhead : (Shift.opening i.right).label (a, ⟨c, below.stop (c + 1), d⟩) =
          (a, ⟨c, below.stop (c + 1) + 2, d⟩) := by
        rw [Shift.label, Shift.apply_of_lt_of_le (by simp only [Shift.opening]; omega)
          (by simp only [Shift.opening]; omega)]
        rfl
      simp only [insertUnder, insertUnder_of_notMem hxa, if_neg hne, tour, hstop,
        List.map_cons, List.map_append, hhead]
      rw [shift_tour_of_le (g := after) (by simp only [Shift.opening]; omega),
        Int.add_right_comm (below.stop (c + 1))]
      exact (((ihb hnb h).append_right _).cons _).trans (.swap ..)
    · have hb := bounds_of_mem_tour h
      dsimp only at hb
      have hc := stop_eq below (c + 1)
      have hhead : (Shift.opening i.right).label (a, ⟨c, below.stop (c + 1), d⟩) =
          (a, ⟨c, below.stop (c + 1), d⟩) := by
        rw [Shift.label, Shift.apply_of_lt (by simp only [Shift.opening]; omega)
          (by simp only [Shift.opening]; omega)]
      simp only [insertUnder, insertUnder_of_notMem hxb, if_neg hne, tour, List.map_cons,
        List.map_append, hhead]
      rw [shift_tour_of_lt (by simp only [Shift.opening]; omega)]
      exact ((((iha hna h).append_left _).trans List.perm_middle).cons _).trans (.swap ..)

/-- A node and what is below it, and how wide its interval is. -/
theorem subtree?_of_mem_tour (hn : g.ids.Nodup) (h : (x, i) ∈ g.tour d c) :
    ∃ below, g.subtree? x.id = some ⟨x, below⟩ ∧ i.right = i.left + 1 + 2 * below.size := by
  induction g generalizing d c with
  | nil => cases h
  | cons a below after ihb iha =>
    obtain ⟨-, -, hnb, hna, -⟩ := nodup_ids_cons.mp hn
    rcases mem_tour_cons_cases hn h with ⟨rfl, rfl, -, -⟩ | ⟨h, -, hne, -⟩ | ⟨h, -, hne, hxb⟩
    · exact ⟨below, by simp [subtree?], stop_eq below (c + 1)⟩
    · obtain ⟨sub, hsub, hwidth⟩ := ihb hnb h
      exact ⟨sub, by simp [subtree?, hne, hsub], hwidth⟩
    · obtain ⟨sub, hsub, hwidth⟩ := iha hna h
      exact ⟨sub, by simp [subtree?, hne, subtree?_eq_none_iff.mpr hxb, hsub], hwidth⟩

private theorem stop_remove (hn : g.ids.Nodup) (h : (x, i) ∈ g.tour d c) :
    (g.remove x.id).stop c = g.stop c - i.span := by
  obtain ⟨below, hsub, hwidth⟩ := subtree?_of_mem_tour hn h
  have hsize := size_remove hn hsub
  simp only [stop_eq, Interval.span] at hsize ⊢
  omega

/-- What stands between the bounds of a node, the node included. -/
def inRange (i : Interval) (e : α × Interval) : Bool :=
  (Filter.within i.left i.right).accepts e.2

theorem inRange_iff {i : Interval} {e : α × Interval} :
    inRange i e = true ↔ i.left ≤ e.2.left ∧ e.2.right ≤ i.right := by
  simp [inRange, Filter.accepts, Filter.within, Comparison.holds]

private theorem filter_tour_of_before {b : Grove Item} {d : Nat} {c : Int} (h : b.stop c ≤ i.left) :
    (b.tour d c).filter (fun e => !inRange i e) = b.tour d c := by
  apply List.filter_eq_self.mpr
  intro e he
  have hb := bounds_of_mem_tour he
  rw [Bool.not_eq_true', ← Bool.not_eq_true, inRange_iff]
  omega

private theorem filter_tour_of_behind {b : Grove Item} {d : Nat} {c : Int} (h : i.right ≤ c) :
    (b.tour d c).filter (fun e => !inRange i e) = b.tour d c := by
  apply List.filter_eq_self.mpr
  intro e he
  have hb := bounds_of_mem_tour he
  rw [Bool.not_eq_true', ← Bool.not_eq_true, inRange_iff]
  omega

/-- A removal takes out what stands between the bounds of the node, and moves every bound from
there on by the width of the gap. -/
theorem tour_remove (hn : g.ids.Nodup) (h : (x, i) ∈ g.tour d c) :
    (g.remove x.id).tour d c =
      ((g.tour d c).filter fun e => !inRange i e).map (Shift.mk i.left (-i.span)).label := by
  induction g generalizing d c with
  | nil => cases h
  | cons a below after ihb iha =>
    obtain ⟨-, -, hnb, hna, -⟩ := nodup_ids_cons.mp hn
    rcases mem_tour_cons_cases hn h with
      ⟨rfl, rfl, -, hxa⟩ | ⟨h, -, hne, hxa⟩ | ⟨h, -, hne, hxb⟩
    · have hb : c + 1 ≤ below.stop (c + 1) := by
        rw [stop_eq]
        omega
      have hin : (below.tour (d + 1) (c + 1)).filter
          (fun e => !inRange ⟨c, below.stop (c + 1), d⟩ e) = [] := by
        apply List.filter_eq_nil_iff.mpr
        intro e he
        have hb := bounds_of_mem_tour he
        rw [Bool.not_eq_true', Bool.not_eq_false, inRange_iff]
        dsimp only
        omega
      have hself : inRange ⟨c, below.stop (c + 1), d⟩ (x, ⟨c, below.stop (c + 1), d⟩) = true :=
        inRange_iff.mpr ⟨Int.le_refl _, Int.le_refl _⟩
      simp only [remove, if_true, remove_of_notMem hxa, tour, List.filter_cons, hself,
        Bool.not_true, Bool.false_eq_true, if_false, List.filter_append, hin, List.nil_append]
      rw [filter_tour_of_behind (by dsimp only; omega), shift_tour_of_le (by dsimp only; omega)]
      congr 1
      simp only [Interval.span]
      omega
    · have hb := bounds_of_mem_tour h
      dsimp only at hb
      have hself : inRange i (a, ⟨c, below.stop (c + 1), d⟩) = false := by
        rw [← Bool.not_eq_true, inRange_iff]
        dsimp only
        omega
      have hhead : (Shift.mk i.left (-i.span)).label (a, ⟨c, below.stop (c + 1), d⟩) =
          (a, ⟨c, below.stop (c + 1) - i.span, d⟩) := by
        rw [Shift.label, Shift.apply_of_lt_of_le (by dsimp only; omega) (by dsimp only; omega)]
        rfl
      simp only [remove, if_neg hne, remove_of_notMem hxa, tour, stop_remove hnb h,
        List.filter_cons, hself, Bool.not_false, if_true, List.filter_append, List.map_cons,
        List.map_append, hhead]
      rw [filter_tour_of_behind (b := after) (by omega),
        shift_tour_of_le (g := after) (by dsimp only; omega), ihb hnb h, Int.sub_eq_add_neg,
        Int.add_right_comm (below.stop (c + 1))]
    · have hb := bounds_of_mem_tour h
      dsimp only at hb
      have hc := stop_eq below (c + 1)
      have hself : inRange i (a, ⟨c, below.stop (c + 1), d⟩) = false := by
        rw [← Bool.not_eq_true, inRange_iff]
        dsimp only
        omega
      have hhead : (Shift.mk i.left (-i.span)).label (a, ⟨c, below.stop (c + 1), d⟩) =
          (a, ⟨c, below.stop (c + 1), d⟩) := by
        rw [Shift.label, Shift.apply_of_lt (by dsimp only; omega) (by dsimp only; omega)]
      simp only [remove, if_neg hne, remove_of_notMem hxb, tour, List.filter_cons, hself,
        Bool.not_false, if_true, List.filter_append, List.map_cons, List.map_append, hhead]
      rw [filter_tour_of_before (by omega), shift_tour_of_lt (by dsimp only; omega), iha hna h]

end Grove

namespace Tree

variable {α : Type}

def grove (t : Tree α) : Grove α :=
  .cons t.root t.below .nil

/-- A tree is numbered from 1, and its root has level 0. -/
def tour (t : Tree α) : List (α × Interval) :=
  t.grove.tour 0 1

def intervals (t : Tree α) : List Interval :=
  t.tour.map Prod.snd

theorem tour_eq (t : Tree α) :
    t.tour = (t.root, ⟨1, t.below.stop 2, 0⟩) :: t.below.tour 1 2 := by
  simp [tour, grove, Grove.tour]

end Tree

end FlatTree
