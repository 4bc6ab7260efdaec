import FlatTree.Numbering
import Mathlib.Data.List.TakeWhile

/-!
# One pass over sorted rows

The check goes through the rows by their left bounds and keeps a stack of those that may still be
open. Here the pass is freed of its state: it succeeds exactly if every row fits between the rows
before and the rows behind it, where its parent is the last row before it that has not ended, and
its width is told by how many rows behind it begin before it ends.
-/

namespace FlatTree

/-- What a summary becomes when more intervals are counted in. -/
def Summary.add (s : Summary) (is : List Interval) : Summary :=
  ⟨s.nodes + is.length, s.leaves + is.countP Interval.isLeaf,
    is.foldl (fun m i => max m i.depth) s.maxDepth⟩

theorem Summary.add_cons (s : Summary) (i : Interval) (is : List Interval) :
    s.add (i :: is) = (s.add [i]).add is := by
  simp only [Summary.add, List.length_cons, List.length_nil, List.countP_cons, List.countP_nil,
    List.foldl_cons, List.foldl_nil, Summary.mk.injEq, and_true]
  omega

namespace Numbering

/-- What is asked of an interval, given those before it, the latest first, and those behind it. -/
structure Fits (before : List Interval) (i : Interval) (behind : List Interval) : Prop where
  upright : i.left < i.right
  parent : match before.find? fun p => decide (i.left ≤ p.right) with
    | none => before = []
    | some p => p.contains i = true ∧ i.depth = p.depth + 1
  width : i.right - i.left = 1 + 2 * (behind.countP fun o => decide (o.left ≤ i.right) : Int)

/-- Every interval of a list fits, given those before the list. -/
def Swept (before : List Interval) : List Interval → Prop
  | [] => True
  | i :: behind => Fits before i behind ∧ Swept (i :: before) behind

theorem swept_append {before xs ys : List Interval} (h : Swept before (xs ++ ys)) :
    Swept (xs.reverse ++ before) ys := by
  induction xs generalizing before with
  | nil => exact h
  | cons x xs ih => simpa using ih h.2

/-- No interval reaches beyond those that enclose it. -/
theorem bounds_of_swept {before is : List Interval} {stop : Int} (h : Swept before is)
    (hne : before ≠ []) (hb : ∀ p ∈ before, p.right ≤ stop) :
    ∀ i ∈ is, i.left < i.right ∧ i.right ≤ stop := by
  induction is generalizing before with
  | nil => simp
  | cons i is ih =>
    obtain ⟨hfits, hrest⟩ := h
    have hi : i.right ≤ stop := by
      have hparent := hfits.parent
      split at hparent
      · exact absurd hparent hne
      · next p hp =>
        have := (Interval.contains_iff.mp hparent.1).2
        have := hb p (List.mem_of_find?_eq_some hp)
        omega
    have hb' : ∀ p ∈ i :: before, p.right ≤ stop := List.forall_mem_cons.mpr ⟨hi, hb⟩
    exact List.forall_mem_cons.mpr ⟨⟨hfits.upright, hi⟩, ih hrest (by simp) hb'⟩

/-- Sorted intervals that fit begin at different numbers. -/
theorem lefts_lt_of_swept {before is : List Interval} (h : Swept before is)
    (hs : is.Pairwise fun a b => a.left ≤ b.left) : is.Pairwise fun a b => a.left < b.left := by
  induction is generalizing before with
  | nil => exact .nil
  | cons i is ih =>
    obtain ⟨hi, hs⟩ := List.pairwise_cons.mp hs
    have hrest := ih h.2 hs
    refine List.pairwise_cons.mpr ⟨?_, hrest⟩
    cases is with
    | nil => simp
    | cons j is =>
      -- The next interval begins behind this one, or this one is its parent.
      have hj : i.left < j.left := by
        by_cases hji : j.left ≤ i.right
        · have hparent := h.2.1.parent
          simp only [List.find?_cons, hji, decide_true] at hparent
          exact (Interval.contains_iff.mp hparent.1).1
        · have := h.1.upright
          omega
      refine List.forall_mem_cons.mpr ⟨hj, fun k hk => ?_⟩
      have := (List.pairwise_cons.mp hrest).1 k hk
      omega

/-! ## The pass and its state -/

/-- What the state has to do with the rows before, the latest first: from the last left bound on,
the stack answers who is still open just as all the rows do. -/
structure Follows (s : Sweep) (before : List Row) : Prop where
  nodes : s.summary.nodes = before.length
  enclosing : ∀ x, (∀ o ∈ before, o.interval.left ≤ x) →
    s.enclosing.find? (fun o => decide (x ≤ o.interval.right)) =
      before.find? fun o => decide (x ≤ o.interval.right)

theorem follows_start : Follows start [] :=
  ⟨rfl, fun _ _ => rfl⟩

private theorem head?_stillOpen (enclosing : List Row) (x : Int) :
    (stillOpen enclosing x).head? = enclosing.find? fun o => decide (x ≤ o.interval.right) := by
  rw [stillOpen, ← List.find?_not_eq_head?_dropWhile]
  simp only [Int.not_lt, ← decide_not]

theorem checkParent_eq_ok_iff {first : Bool} {enclosing : List Row} {r : Row} :
    checkParent first enclosing r = .ok () ↔ match enclosing.head? with
      | none => first = true
      | some p => p.interval.contains r.interval = true ∧
          r.interval.depth = p.interval.depth + 1 := by
  cases enclosing with
  | nil => cases first <;> simp [checkParent]
  | cons p enclosing =>
    simp only [checkParent, List.head?_cons]
    split
    · next h => simp [h]
    · split
      · next h => simp [h]
      · next h h' => simp_all

theorem descendants_eq {before behind : List Row} {r : Row}
    (hb : ∀ o ∈ before, o.interval.left ≤ r.interval.left)
    (hr : r.interval.left ≤ r.interval.right) :
    descendants (before.reverse ++ r :: behind) before.length r =
      behind.countP fun o => decide (o.interval.left ≤ r.interval.right) := by
  have hbefore : before.countP (fun o => decide (o.interval.left ≤ r.interval.right)) =
      before.length :=
    List.countP_eq_length.mpr fun o ho => decide_eq_true (Int.le_trans (hb o ho) hr)
  simp only [descendants, List.countP_append, List.countP_reverse, hbefore, List.countP_cons, hr,
    decide_true, if_true]
  omega

/-- One row is passed exactly if it fits. -/
theorem step_eq_ok_iff {before behind : List Row} {r : Row} {s s' : Sweep} (hs : Follows s before)
    (hb : ∀ o ∈ before, o.interval.left ≤ r.interval.left) :
    step (before.reverse ++ r :: behind) s r = .ok s' ↔
      Fits (before.map (·.interval)) r.interval (behind.map (·.interval)) ∧
        s' = s.push (stillOpen s.enclosing r.interval.left) r
          (behind.countP fun o => decide (o.interval.left ≤ r.interval.right)) := by
  by_cases hr : r.interval.left < r.interval.right
  · have hparent : checkParent (s.summary.nodes == 0) (stillOpen s.enclosing r.interval.left) r =
        .ok () ↔
          match (before.map (·.interval)).find? fun p => decide (r.interval.left ≤ p.right) with
          | none => before.map (·.interval) = []
          | some p => p.contains r.interval = true ∧ r.interval.depth = p.depth + 1 := by
      rw [checkParent_eq_ok_iff, head?_stillOpen, hs.enclosing _ hb, List.find?_map, hs.nodes]
      simp only [Function.comp_def]
      cases before.find? fun o => decide (r.interval.left ≤ o.interval.right) with
      | none => cases before <;> simp
      | some p => rfl
    have hcount : (behind.map (·.interval)).countP (fun o => decide (o.left ≤ r.interval.right)) =
        behind.countP fun o => decide (o.interval.left ≤ r.interval.right) := by
      rw [List.countP_map]
      rfl
    simp only [step, Int.not_le.mpr hr, if_false, hs.nodes, descendants_eq hb (Int.le_of_lt hr)]
    rw [hs.nodes] at hparent
    split
    · next v hv =>
      refine ⟨(nomatch ·), fun h => ?_⟩
      rw [hparent.mpr h.1.parent] at hv
      cases hv
    · next hok =>
      split
      · next hw =>
        exact ⟨(nomatch ·), fun h => absurd (hcount ▸ h.1.width) hw⟩
      · next hw =>
        rw [not_not] at hw
        constructor
        · intro h
          exact ⟨⟨hr, hparent.mp hok, by rw [hcount, hw]⟩, (Except.ok.inj h).symm⟩
        · rintro ⟨-, rfl⟩
          rfl
  · simp only [step, Int.not_lt.mp hr, if_true]
    exact ⟨(nomatch ·), fun h => absurd h.1.upright hr⟩

private theorem follows_push {before : List Row} {r : Row} {s : Sweep} {n : Nat}
    (hs : Follows s before) :
    Follows (s.push (stillOpen s.enclosing r.interval.left) r n) (r :: before) := by
  refine ⟨by simp [Sweep.push, hs.nodes], fun x hx => ?_⟩
  obtain ⟨hrx, hbx⟩ := List.forall_mem_cons.mp hx
  -- What was taken off the stack ended before `r`, hence before `x`.
  have hdrop : (stillOpen s.enclosing r.interval.left).find?
      (fun o => decide (x ≤ o.interval.right)) =
        s.enclosing.find? fun o => decide (x ≤ o.interval.right) := by
    rw [stillOpen]
    induction s.enclosing with
    | nil => rfl
    | cons p enclosing ih =>
      by_cases hp : p.interval.right < r.interval.left
      · have hpx : ¬x ≤ p.interval.right := by omega
        simp only [List.dropWhile_cons, hp, decide_true, if_true, List.find?_cons, hpx,
          decide_false]
        exact ih
      · simp [hp]
  simp only [Sweep.push, List.find?_cons, hdrop, hs.enclosing x hbx]

private theorem summary_push {before behind : List Interval} {r : Row} {s : Sweep}
    (hr : Fits before r.interval behind) (enclosing : List Row) :
    (s.push enclosing r (behind.countP fun o => decide (o.left ≤ r.interval.right))).summary =
      s.summary.add [r.interval] := by
  have hleaf : r.interval.isLeaf = true ↔
      (behind.countP fun o => decide (o.left ≤ r.interval.right)) = 0 := by
    have := hr.width
    simp only [Interval.isLeaf, beq_iff_eq]
    omega
  by_cases h : (behind.countP fun o => decide (o.left ≤ r.interval.right)) = 0
  · simp [Sweep.push, Summary.add, h, hleaf.mpr h]
  · simp [Sweep.push, Summary.add, h, mt hleaf.mp h]

/-- The pass succeeds exactly if all rows fit, and counts them in. -/
theorem foldlM_step_eq_ok_iff {before behind : List Row} {s : Sweep} {summary : Summary}
    (hs : Follows s before)
    (hsorted : (before.reverse ++ behind).Pairwise fun a b => a.interval.left ≤ b.interval.left) :
    (behind.foldlM (step (before.reverse ++ behind)) s).map Sweep.summary = .ok summary ↔
      Swept (before.map (·.interval)) (behind.map (·.interval)) ∧
        summary = s.summary.add (behind.map (·.interval)) := by
  induction behind generalizing before s with
  | nil => simp [Swept, Summary.add, Except.map, pure, Except.pure, eq_comm]
  | cons r behind ih =>
    have hb : ∀ o ∈ before, o.interval.left ≤ r.interval.left := fun o ho =>
      (List.pairwise_append.mp hsorted).2.2 o (List.mem_reverse.mpr ho) r List.mem_cons_self
    have hcount : (behind.map (·.interval)).countP (fun o => decide (o.left ≤ r.interval.right)) =
        behind.countP fun o => decide (o.interval.left ≤ r.interval.right) := by
      rw [List.countP_map]
      rfl
    have happend : before.reverse ++ r :: behind = (r :: before).reverse ++ behind := by simp
    by_cases hr : Fits (before.map (·.interval)) r.interval (behind.map (·.interval))
    · have hstep : step (before.reverse ++ r :: behind) s r = _ :=
        (step_eq_ok_iff hs hb).mpr ⟨hr, rfl⟩
      have hsum := summary_push (s := s) hr (stillOpen s.enclosing r.interval.left)
      rw [hcount] at hsum
      rw [List.foldlM_cons, hstep]
      simp only [bind, Except.bind]
      rw [happend] at hsorted ⊢
      rw [ih (follows_push hs) hsorted, hsum]
      simp only [List.map_cons, Swept, hr, true_and]
      rw [← Summary.add_cons]
    · have hstep : ∀ s', step (before.reverse ++ r :: behind) s r ≠ .ok s' := fun s' h =>
        hr ((step_eq_ok_iff hs hb).mp h).1
      rw [List.foldlM_cons]
      cases h : step (before.reverse ++ r :: behind) s r with
      | ok s' => exact absurd h (hstep s')
      | error v =>
        simp only [bind, Except.bind, Except.map, List.map_cons, Swept]
        exact ⟨(nomatch ·), fun h => absurd h.1.1 hr⟩

end Numbering

end FlatTree
