import FlatTree.Proofs.Sweep
import FlatTree.Proofs.Tour

/-!
# The check accepts exactly the numberings of trees

Intervals that fit their neighbours in one pass are those of a tree: where a node and what it
encloses are cut off a sorted list, the widths leave no number unused, so that both parts are
numberings again. With the pass freed of its state, the check of rows is decided by the existence
of a tree.
-/

namespace FlatTree

/-- How many nodes and leaves a tree has, and how many levels below its root. -/
def Tree.summary {α : Type} (t : Tree α) : Summary :=
  ⟨t.grove.size, t.grove.leaves, t.below.height⟩

namespace Numbering

variable {α : Type}

/-- Where the left bounds pass a number, counting stops. -/
theorem countP_cut {xs ys : List Interval} {stop : Int} (hx : ∀ i ∈ xs, i.left ≤ stop)
    (hy : ∀ i ∈ ys, stop < i.left) :
    (xs ++ ys).countP (fun o => decide (o.left ≤ stop)) = xs.length := by
  have hin : xs.countP (fun o => decide (o.left ≤ stop)) = xs.length :=
    List.countP_eq_length.mpr fun i hi => decide_eq_true (hx i hi)
  have hout : ys.countP (fun o => decide (o.left ≤ stop)) = 0 :=
    List.countP_eq_zero.mpr fun i hi h => by
      have := hy i hi
      have := of_decide_eq_true h
      omega
  rw [List.countP_append, hin, hout, Nat.add_zero]

/-- An interval that fits has the width of a node above those that begin before it ends. -/
theorem right_of_fits {inner : List (α × Interval)} {before rest : List Interval} {i : Interval}
    (h : Fits before i (inner.map Prod.snd ++ rest)) (hinner : ∀ e ∈ inner, e.2.left ≤ i.right)
    (hrest : ∀ o ∈ rest, i.right < o.left) : i.right = i.left + 1 + 2 * inner.length := by
  have hle : ∀ o ∈ inner.map Prod.snd, o.left ≤ i.right := by
    intro o ho
    obtain ⟨e, he, rfl⟩ := List.mem_map.mp ho
    exact hinner e he
  have hwidth := h.width
  rw [countP_cut hle hrest, List.length_map] at hwidth
  omega

/-- What has ended is nobody's parent any more. -/
theorem find?_closed {xs before : List Interval} {x : Int} (h : ∀ i ∈ xs, i.right < x) :
    (xs.reverse ++ before).find? (fun o => decide (x ≤ o.right)) =
      before.find? fun o => decide (x ≤ o.right) := by
  have hnone : xs.reverse.find? (fun o => decide (x ≤ o.right)) = none := by
    refine List.find?_eq_none.mpr fun i hi hxi => ?_
    have := h i (List.mem_reverse.mp hi)
    have := of_decide_eq_true hxi
    omega
  rw [List.find?_append, hnone, Option.none_or]

/-! ## From a tree to the pass -/

/-- A grove right below an open interval fits, and so does what comes behind if it fits behind
the grove. -/
theorem swept_tour {g : Grove α} {d : Nat} {c : Int} {p : Interval} {before behind : List Interval}
    (hopen : ∀ x, c ≤ x → x < g.stop c → before.find? (fun o => decide (x ≤ o.right)) = some p)
    (hleft : p.left < c) (hright : g.stop c ≤ p.right) (hdepth : d = p.depth + 1)
    (hout : ∀ i ∈ behind, g.stop c ≤ i.left)
    (hb : Swept (((g.tour d c).map Prod.snd).reverse ++ before) behind) :
    Swept before ((g.tour d c).map Prod.snd ++ behind) := by
  induction g generalizing d c p before behind with
  | nil => exact hb
  | cons a below after ihb iha =>
    have hbelow := Grove.stop_eq below (c + 1)
    have hafter := Grove.stop_eq after (below.stop (c + 1) + 1)
    simp only [Grove.stop] at hopen hright hout
    simp only [Grove.tour, List.map_cons, List.map_append, List.cons_append, List.append_assoc,
      List.reverse_cons, List.reverse_append, List.nil_append] at hb ⊢
    have hin : ∀ i ∈ (below.tour (d + 1) (c + 1)).map Prod.snd,
        i.left ≤ below.stop (c + 1) ∧ i.right < below.stop (c + 1) := by
      intro i hi
      have := Grove.bounds_of_mem_map_tour hi
      omega
    have hbehind : ∀ i ∈ (after.tour d (below.stop (c + 1) + 1)).map Prod.snd ++ behind,
        below.stop (c + 1) < i.left := by
      intro i hi
      rcases List.mem_append.mp hi with hi | hi
      · have := Grove.bounds_of_mem_map_tour hi
        omega
      · have := hout i hi
        omega
    refine ⟨⟨by dsimp only; omega, ?_, ?_⟩, ?_⟩
    · rw [hopen c (by omega) (by omega)]
      exact ⟨Interval.contains_iff.mpr ⟨hleft, by dsimp only; omega⟩, hdepth⟩
    · rw [countP_cut (fun i hi => (hin i hi).1) hbehind, List.length_map, Grove.length_tour]
      dsimp only
      omega
    · refine ihb (p := ⟨c, below.stop (c + 1), d⟩) (fun x _ hx => by simp [Int.le_of_lt hx])
        (by dsimp only; omega) (Int.le_refl _) rfl (fun i hi => Int.le_of_lt (hbehind i hi)) ?_
      refine iha (fun x hx hx' => ?_) (by omega) hright hdepth hout hb
      have hx0 : ¬x ≤ below.stop (c + 1) := by omega
      rw [find?_closed fun i hi => by have := hin i hi; omega, List.find?_cons]
      simp only [hx0, decide_false]
      exact hopen x (by omega) hx'

private theorem swept_intervals (t : Tree α) : Swept [] t.intervals := by
  have hstop := Grove.stop_eq t.below 2
  have hin : ∀ i ∈ (t.below.tour 1 2).map Prod.snd, i.left ≤ t.below.stop 2 := by
    intro i hi
    have := Grove.bounds_of_mem_map_tour hi
    omega
  have hbelow : Swept [⟨1, t.below.stop 2, 0⟩] ((t.below.tour 1 2).map Prod.snd ++ []) := by
    refine swept_tour (p := ⟨1, t.below.stop 2, 0⟩) ?_ (by dsimp only; omega) (Int.le_refl _) rfl
      (by simp) trivial
    intro x _ hx
    simp [Int.le_of_lt hx]
  rw [List.append_nil] at hbelow
  simp only [Tree.intervals, Tree.tour_eq, List.map_cons]
  refine ⟨⟨by dsimp only; omega, rfl, ?_⟩, hbelow⟩
  rw [← List.append_nil (List.map Prod.snd _), countP_cut hin (by simp), List.length_map,
    Grove.length_tour]
  dsimp only
  omega

/-! ## From the pass to a tree -/

/-- A sorted list is cut in two where the left bounds pass a number. -/
theorem exists_cut {es : List (α × Interval)} (h : es.Pairwise fun a b => a.2.left < b.2.left)
    (x : Int) : ∃ inner outer, es = inner ++ outer ∧ (∀ e ∈ inner, e.2.left ≤ x) ∧
      ∀ e ∈ outer, x < e.2.left := by
  induction es with
  | nil => exact ⟨[], [], rfl, by simp, by simp⟩
  | cons e es ih =>
    obtain ⟨he, h⟩ := List.pairwise_cons.mp h
    by_cases hx : e.2.left ≤ x
    · obtain ⟨inner, outer, rfl, hin, hout⟩ := ih h
      exact ⟨e :: inner, outer, rfl, List.forall_mem_cons.mpr ⟨hx, hin⟩, hout⟩
    · refine ⟨[], e :: es, rfl, by simp, List.forall_mem_cons.mpr ⟨by omega, fun o ho => ?_⟩⟩
      have := he o ho
      omega

/-- Intervals that fit right below an open one need two numbers each, and if they have no more than
that they are a numbering. The induction is on a bound of their number: the first one, what it
encloses, and the rest. -/
theorem exists_tour_of_swept {n : Nat} {es : List (α × Interval)} {c : Int} {p : Interval}
    {before behind : List Interval} (hn : es.length ≤ n)
    (hswept : Swept before (es.map Prod.snd ++ behind))
    (hsorted : es.Pairwise fun a b => a.2.left < b.2.left)
    (hopen : ∀ x, c ≤ x → x ≤ p.right → before.find? (fun o => decide (x ≤ o.right)) = some p)
    (hc : c ≤ p.right) (hin : ∀ e ∈ es, c ≤ e.2.left ∧ e.2.left ≤ p.right)
    (hout : ∀ i ∈ behind, p.right < i.left) :
    c + 2 * es.length ≤ p.right ∧
      (p.right = c + 2 * es.length → ∃ g : Grove α, g.tour (p.depth + 1) c = es) := by
  induction n generalizing es c p before behind with
  | zero =>
    obtain rfl := List.length_eq_zero_iff.mp (Nat.le_zero.mp hn)
    exact ⟨by simpa using hc, fun _ => ⟨.nil, rfl⟩⟩
  | succ n ih =>
    cases es with
    | nil => exact ⟨by simpa using hc, fun _ => ⟨.nil, rfl⟩⟩
    | cons e es =>
      obtain ⟨hlt, hsorted⟩ := List.pairwise_cons.mp hsorted
      obtain ⟨⟨hce, hep⟩, hin⟩ := List.forall_mem_cons.mp hin
      obtain ⟨inner, outer, rfl, hinner, houter⟩ := exists_cut hsorted e.2.right
      obtain ⟨hsin, hsout, -⟩ := List.pairwise_append.mp hsorted
      simp only [List.map_cons, List.map_append, List.cons_append, List.append_assoc] at hswept
      obtain ⟨hfits, hswept⟩ := hswept
      have hparent := hfits.parent
      rw [hopen _ hce hep] at hparent
      obtain ⟨hcontains, hdepth⟩ := hparent
      have hright := (Interval.contains_iff.mp hcontains).2
      have hbehind : ∀ i ∈ outer.map Prod.snd ++ behind, e.2.right < i.left := by
        intro i hi
        rcases List.mem_append.mp hi with hi | hi
        · obtain ⟨o, ho, rfl⟩ := List.mem_map.mp hi
          exact houter o ho
        · have := hout i hi
          omega
      have hwidth := right_of_fits hfits hinner hbehind
      simp only [List.length_cons, List.length_append] at hn ⊢
      have hinside := ih (c := e.2.left + 1) (p := e.2) (by omega) hswept hsin
        (fun x _ hx => by simp [hx]) (by omega)
        (fun o ho => ⟨by have := hlt o (List.mem_append_left _ ho); omega, hinner o ho⟩) hbehind
      obtain ⟨below, hbelow⟩ := hinside.2 hwidth
      have hstop : below.stop (e.2.left + 1) = e.2.right :=
        (Grove.stop_of_tour_eq hbelow).trans hwidth.symm
      have hclosed : ∀ i ∈ inner.map Prod.snd, i.right < e.2.right := by
        intro i hi
        rw [← hbelow] at hi
        exact hstop ▸ (Grove.bounds_of_mem_map_tour hi).2.2
      have houtside := ih (c := e.2.right + 1) (p := p) (by omega) (swept_append hswept) hsout
        (fun x hx hxp => by
          have hx0 : ¬x ≤ e.2.right := by omega
          rw [find?_closed fun i hi => by have := hclosed i hi; omega, List.find?_cons]
          simp only [hx0, decide_false]
          exact hopen x (by omega) hxp)
        (by omega)
        (fun o ho => ⟨by have := houter o ho; omega, (hin o (List.mem_append_right _ ho)).2⟩) hout
      refine ⟨by omega, fun hp => ?_⟩
      obtain ⟨after, hafter⟩ := houtside.2 (by omega)
      have hcl : c = e.2.left := by omega
      refine ⟨.cons e.1 below after, ?_⟩
      rw [Grove.tour, hcl, hstop, hafter, ← hdepth, hbelow]

/-- Sorted intervals that fit, the first of which is in the place of a root, are the numbering of a
tree. -/
theorem exists_tree_of_swept {e : α × Interval} {es : List (α × Interval)}
    (hswept : Swept [] ((e :: es).map Prod.snd))
    (hsorted : (e :: es).Pairwise fun a b => a.2.left ≤ b.2.left) (hleft : e.2.left = 1)
    (hdepth : e.2.depth = 0) : ∃ t : Tree α, t.tour = e :: es := by
  have hlt := lefts_lt_of_swept hswept (List.pairwise_map.mpr hsorted)
  obtain ⟨hfirst, hlt⟩ := List.pairwise_cons.mp (List.pairwise_map.mp hlt)
  obtain ⟨hfits, hswept⟩ := hswept
  have hin : ∀ o ∈ es, e.2.left + 1 ≤ o.2.left ∧ o.2.left ≤ e.2.right := by
    intro o ho
    have hpar : ∀ p ∈ [e.2], p.right ≤ e.2.right := by simp
    have hb := bounds_of_swept hswept (by simp) hpar o.2 (List.mem_map_of_mem ho)
    have := hfirst o ho
    omega
  rw [← List.append_nil (List.map Prod.snd es)] at hfits hswept
  have hwidth := right_of_fits hfits (fun o ho => (hin o ho).2) (by simp)
  have hrest := exists_tour_of_swept (c := e.2.left + 1) (p := e.2) (Nat.le_refl _) hswept hlt
    (fun x _ hx => by simp [hx]) (by omega) hin (by simp)
  obtain ⟨below, hbelow⟩ := hrest.2 hwidth
  have hstop : below.stop (e.2.left + 1) = e.2.right :=
    (Grove.stop_of_tour_eq hbelow).trans hwidth.symm
  rw [hleft] at hstop
  rw [hleft, hdepth] at hbelow
  refine ⟨⟨e.1, below⟩, (Tree.tour_eq _).trans (congr (congrArg _ ?_) hbelow)⟩
  rw [← hleft, ← hdepth]
  exact congrArg (fun r => (e.1, Interval.mk e.2.left r e.2.depth)) hstop

/-! ## The summary -/

private theorem countP_isLeaf_tour (g : Grove α) (d : Nat) (c : Int) :
    ((g.tour d c).map Prod.snd).countP Interval.isLeaf = g.leaves := by
  induction g generalizing d c with
  | nil => rfl
  | cons a below after ihb iha =>
    have hstop := Grove.stop_eq below (c + 1)
    have hleaf : (Interval.mk c (below.stop (c + 1)) d).isLeaf = true ↔ below.size = 0 := by
      simp only [Interval.isLeaf, beq_iff_eq]
      omega
    have hleaves : below.size = 0 → below.leaves = 0 := by
      intro h
      rw [(Grove.size_eq_zero_iff below).mp h]
      rfl
    simp only [Grove.tour, List.map_cons, List.map_append, List.countP_cons, List.countP_append,
      ihb, iha, hleaf, Grove.leaves_cons]
    split
    · next h =>
      rw [hleaves h]
      omega
    · omega

private theorem foldl_depth_tour (g : Grove α) {d m : Nat} (c : Int) (h : d ≤ m + 1) :
    ((g.tour d c).map Prod.snd).foldl (fun m i => max m i.depth) m = max m (d + g.height - 1) := by
  induction g generalizing d c m with
  | nil =>
    simp only [Grove.tour, Grove.height, List.map_nil, List.foldl_nil]
    omega
  | cons a below after ihb iha =>
    simp only [Grove.tour, List.map_cons, List.map_append, List.foldl_cons, List.foldl_append,
      Grove.height]
    rw [ihb (c + 1) (by omega), iha _ (by omega)]
    omega

private theorem add_intervals (t : Tree α) : Summary.add ⟨0, 0, 0⟩ t.intervals = t.summary := by
  simp only [Summary.add, Tree.intervals, Tree.tour, countP_isLeaf_tour,
    foldl_depth_tour t.grove 1 (Nat.zero_le 1), List.length_map, Grove.length_tour, Tree.summary,
    Summary.mk.injEq, Nat.zero_add, true_and]
  simp only [Tree.grove, Grove.height]
  omega

/-! ## The check -/

theorem sorted_le_iff {a b : Row} :
    ((compare a.interval.left b.interval.left).then
      (compare a.interval.right b.interval.right)).isLE = true ↔
      a.interval.left < b.interval.left ∨
        a.interval.left = b.interval.left ∧ a.interval.right ≤ b.interval.right := by
  rw [Ordering.isLE_then_iff_or, Std.compare_eq_lt, Std.LawfulEqCmp.compare_eq_iff_eq,
    Std.isLE_compare]

theorem sorted_perm (rows : List Row) : (sorted rows).Perm rows :=
  List.mergeSort_perm rows _

theorem pairwise_sorted (rows : List Row) :
    (sorted rows).Pairwise fun a b => a.interval.left ≤ b.interval.left := by
  refine (List.pairwise_mergeSort ?_ ?_ rows).imp fun {a b} h => ?_
  · intro a b c hab hbc
    rw [sorted_le_iff] at hab hbc ⊢
    omega
  · intro a b
    rw [Bool.or_eq_true, sorted_le_iff, sorted_le_iff]
    omega
  · have := sorted_le_iff.mp h
    omega

theorem checkRoot_eq_ok_iff {rows : List Row} {first : Row} :
    checkRoot rows first = .ok () ↔
      (rows.countP fun r => decide (r.interval.left = 1)) = 1 ∧ first.interval.left = 1 ∧
        first.interval.depth = 0 := by
  simp only [checkRoot]
  split
  · next h => simp [h]
  · next h =>
    split
    · next h' => simp [h']
    · split
      · next h' => simp [h']
      · next h' h'' => simp_all
  · next h => exact ⟨(nomatch ·), fun h' => absurd h'.1 h⟩

theorem check_eq_ok_iff_swept {rows rest : List Row} {first : Row} {s : Summary}
    (h : sorted rows = first :: rest) :
    check rows = .ok s ↔
      (((first :: rest).countP fun r => decide (r.interval.left = 1)) = 1 ∧
        first.interval.left = 1 ∧ first.interval.depth = 0) ∧
      Swept [] ((first :: rest).map (·.interval)) ∧
        s = Summary.add ⟨0, 0, 0⟩ ((first :: rest).map (·.interval)) := by
  have hpair : (([] : List Row).reverse ++ first :: rest).Pairwise
      fun a b => a.interval.left ≤ b.interval.left := h ▸ pairwise_sorted rows
  have hpass : _ = Except.ok s ↔ _ := foldlM_step_eq_ok_iff follows_start hpair
  rw [← checkRoot_eq_ok_iff]
  simp only [check, h]
  cases checkRoot (first :: rest) first with
  | error v => simp
  | ok u =>
    rw [eq_self_iff_true, true_and]
    exact hpass

theorem check_nil : check [] = .ok ⟨0, 0, 0⟩ := by
  simp [check, sorted]

/-- Rows that pass the check are those of a tree, whatever their labels. -/
theorem exists_tree_of_check {rows : List Row} {s : Summary} (h : check rows = .ok s)
    (hne : rows ≠ []) (label : Row → α) :
    ∃ t : Tree α, (rows.map fun r => (label r, r.interval)).Perm t.tour ∧ s = t.summary := by
  have hperm := sorted_perm rows
  cases hsorted : sorted rows with
  | nil => exact absurd (List.nil_perm.mp (hsorted ▸ hperm)) hne
  | cons first rest =>
    obtain ⟨⟨-, hleft, hdepth⟩, hswept, rfl⟩ := (check_eq_ok_iff_swept hsorted).mp h
    have hpair := pairwise_sorted rows
    rw [hsorted] at hpair hperm
    have hintervals : (first :: rest).map (·.interval) =
        ((first :: rest).map fun r => (label r, r.interval)).map Prod.snd := by
      rw [List.map_map]
      rfl
    rw [hintervals] at hswept ⊢
    have hpair' : ((first :: rest).map fun r => (label r, r.interval)).Pairwise
        fun a b => a.2.left ≤ b.2.left := List.pairwise_map.mpr hpair
    obtain ⟨t, ht⟩ := exists_tree_of_swept hswept hpair' hleft hdepth
    refine ⟨t, ht ▸ (hperm.map _).symm, ?_⟩
    rw [← add_intervals, Tree.intervals, ht]
    rfl

/-- Rows with the intervals of a tree pass the check. -/
theorem check_of_perm_intervals {rows : List Row} {t : Tree α}
    (h : (rows.map (·.interval)).Perm t.intervals) : check rows = .ok t.summary := by
  have hlt : t.intervals.Pairwise fun a b => a.left < b.left :=
    List.pairwise_map.mpr (Grove.lefts_tour t.grove 0 1)
  have hsorted : (sorted rows).map (·.interval) = t.intervals := by
    have hpair : ((sorted rows).map (·.interval)).Pairwise fun a b => a.left ≤ b.left :=
      List.pairwise_map.mpr (pairwise_sorted rows)
    apply List.Perm.eq_of_pairwise _ hpair (hlt.imp Int.le_of_lt)
      (((sorted_perm rows).map _).trans h)
    intro a b ha hb hab hba
    have hnodup : (t.intervals.map (·.left)).Nodup :=
      List.pairwise_map.mpr (hlt.imp Int.ne_of_lt)
    exact List.inj_on_of_nodup_map hnodup ((((sorted_perm rows).map _).trans h).subset ha) hb
      (Int.le_antisymm hab hba)
  cases hrows : sorted rows with
  | nil => simp [hrows, Tree.intervals, Tree.tour_eq] at hsorted
  | cons first rest =>
    rw [hrows] at hsorted
    have hswept := swept_intervals t
    have hsum := add_intervals t
    rw [← hsorted] at hswept hsum hlt
    have hfirst : first.interval = ⟨1, t.below.stop 2, 0⟩ := by
      simp only [Tree.intervals, Tree.tour_eq, List.map_cons, List.cons.injEq] at hsorted
      exact hsorted.1
    refine (check_eq_ok_iff_swept hrows).mpr
      ⟨⟨?_, by rw [hfirst], by rw [hfirst]⟩, hswept, hsum.symm⟩
    have hrest : rest.countP (fun r => decide (r.interval.left = 1)) = 0 := by
      apply List.countP_eq_zero.mpr
      intro r hr h
      have h1 : first.interval.left < r.interval.left :=
        (List.pairwise_cons.mp hlt).1 _ (List.mem_map_of_mem hr)
      simp only [hfirst] at h1
      have := of_decide_eq_true h
      omega
    rw [List.countP_cons, hrest, hfirst]
    rfl

/-- The check accepts no rows at all and the numberings of trees, whatever the order of the rows,
and sums up the tree. -/
theorem check_eq_ok_iff {rows : List Row} {s : Summary} :
    check rows = .ok s ↔
      rows = [] ∧ s = ⟨0, 0, 0⟩ ∨
        ∃ t : Tree Unit, (rows.map (·.interval)).Perm t.intervals ∧ s = t.summary := by
  constructor
  · intro h
    by_cases hne : rows = []
    · subst hne
      exact .inl ⟨rfl, Except.ok.inj (h.symm.trans check_nil)⟩
    · obtain ⟨t, hperm, hs⟩ := exists_tree_of_check h hne fun _ => ()
      have hsnd := hperm.map Prod.snd
      rw [List.map_map] at hsnd
      exact .inr ⟨t, hsnd, hs⟩
  · rintro (⟨rfl, rfl⟩ | ⟨t, hperm, rfl⟩)
    · exact check_nil
    · exact check_of_perm_intervals hperm

end Numbering

end FlatTree
