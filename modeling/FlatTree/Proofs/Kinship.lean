import FlatTree.Proofs.Tour

/-!
# Kinship read off intervals

A filter knows nothing of a tree, only bounds and a depth. In the numbering of a tree this is
enough: what lies strictly inside the interval of a node is what stands below the node, and one
level further in there are just its children. What lies strictly around it is the chain of nodes
above, one on every level from the top down.
-/

namespace FlatTree

namespace Filter

variable {i j : Interval}

theorem accepts_inside_iff :
    (inside i).accepts j = true ↔ i.left < j.left ∧ j.right < i.right := by
  simp [accepts, inside, Comparison.holds]

theorem accepts_around_iff :
    (around i).accepts j = true ↔ j.left < i.left ∧ i.right < j.right := by
  simp [accepts, around, Comparison.holds]

/-- A node is inside another if that is around the one. -/
theorem accepts_inside_eq_around (i j : Interval) :
    (inside i).accepts j = (around j).accepts i := by
  rw [Bool.eq_iff_iff, accepts_inside_iff, accepts_around_iff]

theorem accepts_atDepth {f : Filter} (h : f.depth = none) (d : Nat) (j : Interval) :
    (f.atDepth d).accepts j = (f.accepts j && d == j.depth) := by
  simp [accepts, atDepth, h]

theorem filter_atDepth {α : Type} {f : Filter} (h : f.depth = none) (d : Nat)
    (es : List (α × Interval)) :
    es.filter ((f.atDepth d).accepts ·.2) =
      (es.filter (f.accepts ·.2)).filter (d == ·.2.depth) := by
  rw [List.filter_filter]
  apply List.filter_congr
  intro e _
  rw [accepts_atDepth h, Bool.and_comm]

end Filter

namespace Grove

/-- The nodes above a node, from the top down. -/
def above? (id : NodeId) : Grove Item → Option (List Item)
  | nil => none
  | cons a below after =>
    if a.id = id then some [] else ((below.above? id).map (a :: ·)).or (after.above? id)

private theorem above?_of_notMem {g : Grove Item} {id : NodeId} (h : id ∉ g.ids) :
    g.above? id = none := by
  induction g with
  | nil => rfl
  | cons a below after ihb iha =>
    simp only [ids_cons, List.mem_cons, List.mem_append, not_or] at h
    simp [above?, ihb h.2.1, iha h.2.2, Ne.symm h.1]

/-- The children of a node are the first level of what is below it. -/
theorem childrenOf_of_subtree? {g : Grove Item} {id : NodeId} {t : Tree Item} (hn : g.ids.Nodup)
    (h : g.subtree? id = some t) : g.childrenOf id = t.below.roots := by
  induction g with
  | nil => cases h
  | cons a below after ihb iha =>
    obtain ⟨hab, haa, hnb, hna, hdis⟩ := nodup_ids_cons.mp hn
    by_cases ha : a.id = id
    · subst ha
      rw [subtree?, if_pos rfl] at h
      cases h
      simp [childrenOf, childrenOf_of_notMem hab, childrenOf_of_notMem haa]
    · rw [subtree?, if_neg ha, Option.or_eq_some_iff] at h
      rcases h with h | ⟨hb, h⟩
      · simp [childrenOf, ha, ihb hnb h, childrenOf_of_notMem (hdis _ (id_mem_of_subtree? h))]
      · simp [childrenOf, ha, iha hna h, childrenOf_of_notMem (subtree?_eq_none_iff.mp hb)]

/-! ## Levels -/

/-- The first level of a grove are the nodes of its lowest depth. -/
theorem filter_depth_tour {α : Type} (g : Grove α) (d : Nat) (c : Int) :
    ((g.tour d c).filter (d == ·.2.depth)).map Prod.fst = g.roots := by
  induction g generalizing d c with
  | nil => rfl
  | cons a below after _ iha =>
    have hbelow : (below.tour (d + 1) (c + 1)).filter (d == ·.2.depth) = [] := by
      apply List.filter_eq_nil_iff.mpr
      intro e he
      have hb := bounds_of_mem_tour he
      rw [beq_iff_eq]
      omega
    simp [tour, roots, hbelow, iha]

/-- On every level from `d` on a chain has one node, up to its end. -/
theorem filter_zipIdx {α : Type} (xs : List α) (d k : Nat) :
    ((xs.zipIdx d).filter (d + k == ·.2)).map Prod.fst = xs[k]?.toList := by
  induction xs generalizing d k with
  | nil => rfl
  | cons x xs ih =>
    cases k with
    | zero =>
      have hrest : (xs.zipIdx (d + 1)).filter (d == ·.2) = [] := by
        apply List.filter_eq_nil_iff.mpr
        intro e he
        have hle := List.le_snd_of_mem_zipIdx he
        rw [beq_iff_eq]
        omega
      simp [hrest]
    | succ k =>
      have hne : (d + (k + 1) == d) = false := by simp
      rw [List.zipIdx_cons, List.filter_cons, hne, List.getElem?_cons_succ, ← ih (d + 1) k,
        Nat.add_right_comm d 1 k]
      rfl

/-! ## Inside and around -/

variable {g : Grove Item} {x : Item} {i : Interval} {d : Nat} {c : Int}

/-- A grove that ends before an interval, or begins behind it, has nothing inside. -/
theorem filter_inside_eq_nil (h : g.stop c ≤ i.left ∨ i.right ≤ c) :
    (g.tour d c).filter ((Filter.inside i).accepts ·.2) = [] := by
  apply List.filter_eq_nil_iff.mpr
  intro e he
  have hb := bounds_of_mem_tour he
  rw [Filter.accepts_inside_iff]
  omega

/-- A grove that ends within an interval, or begins behind its start, has nothing around it. -/
theorem filter_around_eq_nil (h : g.stop c ≤ i.right ∨ i.left ≤ c) :
    (g.tour d c).filter ((Filter.around i).accepts ·.2) = [] := by
  apply List.filter_eq_nil_iff.mpr
  intro e he
  have hb := bounds_of_mem_tour he
  rw [Filter.accepts_around_iff]
  omega

/-- What lies inside the interval of a node is the tour of what stands below the node. -/
theorem filter_inside_tour {t : Tree Item} (hn : g.ids.Nodup) (h : (x, i) ∈ g.tour d c)
    (hsub : g.subtree? x.id = some t) :
    (g.tour d c).filter ((Filter.inside i).accepts ·.2) =
      t.below.tour (i.depth + 1) (i.left + 1) := by
  induction g generalizing d c with
  | nil => cases h
  | cons a below after ihb iha =>
    obtain ⟨-, -, hnb, hna, -⟩ := nodup_ids_cons.mp hn
    rcases mem_tour_cons_cases hn h with ⟨rfl, rfl, -, -⟩ | ⟨h, -, hne, hxa⟩ | ⟨h, -, hne, hxb⟩
    · rw [subtree?, if_pos rfl] at hsub
      cases hsub
      have hself : (Filter.inside ⟨c, below.stop (c + 1), d⟩).accepts
          ⟨c, below.stop (c + 1), d⟩ = false := by
        rw [← Bool.not_eq_true, Filter.accepts_inside_iff]
        exact fun hlt => Int.lt_irrefl _ hlt.1
      have hbelow : (below.tour (d + 1) (c + 1)).filter
          ((Filter.inside ⟨c, below.stop (c + 1), d⟩).accepts ·.2) =
            below.tour (d + 1) (c + 1) := by
        apply List.filter_eq_self.mpr
        intro e he
        have hb := bounds_of_mem_tour he
        rw [Filter.accepts_inside_iff]
        dsimp only
        omega
      rw [tour, List.filter_cons, hself, List.filter_append, hbelow,
        filter_inside_eq_nil (g := after) (by dsimp only; omega), List.append_nil]
      rfl
    · rw [subtree?, if_neg hne, subtree?_eq_none_iff.mpr hxa, Option.or_none] at hsub
      have hb := bounds_of_mem_tour h
      dsimp only at hb
      have hself : (Filter.inside i).accepts ⟨c, below.stop (c + 1), d⟩ = false := by
        rw [← Bool.not_eq_true, Filter.accepts_inside_iff]
        dsimp only
        omega
      rw [tour, List.filter_cons, hself, List.filter_append, ihb hnb h hsub,
        filter_inside_eq_nil (g := after) (by omega), List.append_nil]
      rfl
    · rw [subtree?, if_neg hne, subtree?_eq_none_iff.mpr hxb, Option.none_or] at hsub
      have hb := bounds_of_mem_tour h
      have hc := stop_eq below (c + 1)
      dsimp only at hb
      have hself : (Filter.inside i).accepts ⟨c, below.stop (c + 1), d⟩ = false := by
        rw [← Bool.not_eq_true, Filter.accepts_inside_iff]
        dsimp only
        omega
      rw [tour, List.filter_cons, hself, List.filter_append, iha hna h hsub,
        filter_inside_eq_nil (g := below) (by omega), List.nil_append]
      rfl

/-- What lies around the interval of a node are the nodes above it, one on every level. -/
theorem filter_around_tour (hn : g.ids.Nodup) (h : (x, i) ∈ g.tour d c) :
    ∃ above, g.above? x.id = some above ∧ i.depth = d + above.length ∧
      ((g.tour d c).filter ((Filter.around i).accepts ·.2)).map (fun e => (e.1, e.2.depth)) =
        above.zipIdx d := by
  induction g generalizing d c with
  | nil => cases h
  | cons a below after ihb iha =>
    obtain ⟨-, -, hnb, hna, -⟩ := nodup_ids_cons.mp hn
    have hc := stop_eq below (c + 1)
    rcases mem_tour_cons_cases hn h with ⟨rfl, rfl, -, -⟩ | ⟨h, -, hne, -⟩ | ⟨h, -, hne, hxb⟩
    · have hself : (Filter.around ⟨c, below.stop (c + 1), d⟩).accepts
          ⟨c, below.stop (c + 1), d⟩ = false := by
        rw [← Bool.not_eq_true, Filter.accepts_around_iff]
        exact fun hlt => Int.lt_irrefl _ hlt.1
      refine ⟨[], by simp [above?], rfl, ?_⟩
      rw [tour, List.filter_cons, hself, List.filter_append,
        filter_around_eq_nil (g := below) (by dsimp only; omega),
        filter_around_eq_nil (g := after) (by dsimp only; omega)]
      rfl
    · have hb := bounds_of_mem_tour h
      dsimp only at hb
      have hself : (Filter.around i).accepts ⟨c, below.stop (c + 1), d⟩ = true := by
        rw [Filter.accepts_around_iff]
        dsimp only
        omega
      obtain ⟨above, habove, hdepth, hfilter⟩ := ihb hnb h
      refine ⟨a :: above, by simp [above?, hne, habove], ?_, ?_⟩
      · rw [hdepth, List.length_cons]
        omega
      · rw [tour, List.filter_cons, hself, List.filter_append,
          filter_around_eq_nil (g := after) (by omega), List.append_nil, if_pos rfl,
          List.map_cons, hfilter, List.zipIdx_cons]
    · have hb := bounds_of_mem_tour h
      dsimp only at hb
      have hself : (Filter.around i).accepts ⟨c, below.stop (c + 1), d⟩ = false := by
        rw [← Bool.not_eq_true, Filter.accepts_around_iff]
        dsimp only
        omega
      obtain ⟨above, habove, hdepth, hfilter⟩ := iha hna h
      refine ⟨above, by simp [above?, hne, above?_of_notMem hxb, habove], hdepth, ?_⟩
      rw [tour, List.filter_cons, hself, List.filter_append,
        filter_around_eq_nil (g := below) (by omega), List.nil_append]
      exact hfilter

end Grove

end FlatTree
