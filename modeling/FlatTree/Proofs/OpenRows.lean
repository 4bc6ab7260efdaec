import FlatTree.Proofs.Violations

/-!
# The rows that are open

Whenever the check comes to a row, its stack holds the root at the bottom and each row above the one
that encloses it, and taking off what has ended leaves just the rows that have not. A row that is
still open is never lost, though it may be hidden under others, since what lies above it ends first.
All of this holds on lists that are refused later on, about whose other rows nothing is known but
that they begin no sooner. It is also why the rows that begin before a row ends are never fewer than
those that were gone through.
-/

namespace FlatTree

namespace Numbering

/-- The check comes to the row `r`: there is a root, and the rows `done` before it were passed one
after the other, which left the state `s`. The rows `behind` it are still to come. -/
structure ComesTo (rows done : List Row) (s : Sweep) (r : Row) (behind : List Row) : Prop where
  split : sorted rows = done ++ r :: behind
  root : ∀ first ∈ (sorted rows).head?, checkRoot (sorted rows) first = .ok ()
  passed : done.foldlM (step (sorted rows)) start = .ok s

/-- A row that is neither inverted nor in a wrong place gets as far as the test of its width. -/
def Measured (s : Sweep) (r : Row) : Prop :=
  r.interval.left < r.interval.right ∧
    checkParent (s.summary.nodes == 0) (stillOpen s.enclosing r.interval.left) r = .ok ()

/-- What the state is, innermost row first, when the check comes to a row. -/
structure InOrder (rows done : List Row) (s : Sweep) (r : Row) : Prop where
  empty_iff : s.enclosing = [] ↔ done = []
  bottom : ∀ root ∈ s.enclosing.getLast?, IsRoot rows root
  nested : s.enclosing.Pairwise fun inner outer => outer.interval.contains inner.interval = true
  opened : stillOpen s.enclosing r.interval.left =
    (done.filter fun o => decide (r.interval.left ≤ o.interval.right)).reverse
  counted : Measured s r →
    done.length + 1 ≤ rows.countP (fun o => decide (o.interval.left ≤ r.interval.right)) ∧
      descendants (sorted rows) s.summary.nodes r + (done.length + 1) =
        rows.countP fun o => decide (o.interval.left ≤ r.interval.right)

/-! ## The bottom of the stack -/

/-- Only the first row may find the stack empty. -/
theorem nodes_eq_zero_of_step {rows : List Row} {s s' : Sweep} {r : Row}
    (h : step rows s r = .ok s') (hopen : stillOpen s.enclosing r.interval.left = []) :
    s.summary.nodes = 0 := by
  simp only [step, hopen, checkParent] at h
  split at h
  · cases h
  · by_cases hn : s.summary.nodes = 0
    · exact hn
    · simp [hn] at h

/-- What is put onto the stack does not change its bottom, and what is taken off does not reach
it. -/
theorem bottom_push {rows before : List Row} {s s' : Sweep} {r : Row}
    (hnodes : s.summary.nodes = before.length)
    (hbottom : s.enclosing.getLast? = before.getLast?) (h : step rows s r = .ok s') :
    s'.enclosing.getLast? = (r :: before).getLast? := by
  obtain ⟨n, rfl, -⟩ := exists_push_of_step h
  have hsuffix : stillOpen s.enclosing r.interval.left <:+ s.enclosing := List.dropWhile_suffix _
  rw [Sweep.push]
  cases hopen : stillOpen s.enclosing r.interval.left with
  | nil =>
    rw [nodes_eq_zero_of_step h hopen] at hnodes
    rw [List.eq_nil_of_length_eq_zero hnodes.symm]
  | cons p outer =>
    obtain ⟨closed, hclosed⟩ := hopen ▸ hsuffix
    have hlast : (p :: outer).getLast? = before.getLast? := by
      rw [← hbottom, ← hclosed, List.getLast?_append_of_ne_nil _ (List.cons_ne_nil p outer)]
    cases before with
    | nil => simp at hlast
    | cons b before => rw [List.getLast?_cons_cons, List.getLast?_cons_cons, hlast]

/-- The bottom of the stack is the first row, after any number of rows. -/
theorem bottom_of_foldlM {rows before done : List Row} {s s' : Sweep}
    (hnodes : s.summary.nodes = before.length)
    (hbottom : s.enclosing.getLast? = before.getLast?)
    (hrun : done.foldlM (step rows) s = .ok s') :
    s'.enclosing.getLast? = (done.reverse ++ before).getLast? := by
  induction done generalizing before s with
  | nil =>
    cases hrun
    exact hbottom
  | cons r done ih =>
    rw [List.foldlM_cons, bind_eq_ok_iff] at hrun
    obtain ⟨s₁, hstep, hrun⟩ := hrun
    have hpush := bottom_push hnodes hbottom hstep
    obtain ⟨n, rfl, -⟩ := exists_push_of_step hstep
    have hnext := ih (congrArg (· + 1) hnodes) hpush hrun
    simpa using hnext

/-! ## At any row -/

namespace ComesTo

variable {rows done behind : List Row} {s : Sweep} {r : Row}

/-- The check goes on from the row with the state that it has. -/
theorem check_eq (h : ComesTo rows done s r behind) :
    check rows = ((r :: behind).foldlM (step (sorted rows)) s).map Sweep.summary := by
  have hrun : (sorted rows).foldlM (step (sorted rows)) start =
      (r :: behind).foldlM (step (sorted rows)) s := by
    conv_lhs => arg 3; rw [h.split]
    rw [List.foldlM_append, h.passed]
    rfl
  rw [check, ← hrun]
  cases hrows : sorted rows with
  | nil =>
    have hsplit := h.split
    simp [hrows] at hsplit
  | cons first rest =>
    have hroot := h.root first (by rw [hrows]; rfl)
    rw [hrows] at hroot
    simp only [hroot]

/-- The rows before begin no later. -/
theorem left_le (h : ComesTo rows done s r behind) :
    ∀ o ∈ done, o.interval.left ≤ r.interval.left := by
  have hsorted := pairwise_sorted rows
  rw [h.split, List.pairwise_append] at hsorted
  exact fun o ho => hsorted.2.2 o ho r List.mem_cons_self

theorem stacked (h : ComesTo rows done s r behind) : Stacked s done.reverse := by
  have hsorted := pairwise_sorted rows
  rw [h.split, List.pairwise_append] at hsorted
  have hstacked : Stacked s (done.reverse ++ []) :=
    stacked_of_foldlM stacked_start hsorted.1 h.passed
  rwa [List.append_nil] at hstacked

theorem getLast?_enclosing (h : ComesTo rows done s r behind) :
    s.enclosing.getLast? = done.head? := by
  have hbottom : s.enclosing.getLast? = (done.reverse ++ []).getLast? :=
    bottom_of_foldlM rfl rfl h.passed
  rwa [List.append_nil, List.getLast?_reverse] at hbottom

/-- The first row is the root. -/
theorem isRoot_of_head? (h : ComesTo rows done s r behind) {root : Row}
    (hroot : root ∈ (sorted rows).head?) : IsRoot rows root := by
  obtain ⟨hcount, hleft, -⟩ := checkRoot_eq_ok_iff.mp (h.root root hroot)
  have hmem := (sorted_perm rows).subset (List.mem_of_mem_head? hroot)
  rw [(sorted_perm rows).countP_eq] at hcount
  exact isRoot_of_countP hcount hmem hleft

/-- All rows up to this one begin before it ends, unless it is inverted. -/
theorem countP_eq (h : ComesTo rows done s r behind) (hr : r.interval.left < r.interval.right) :
    rows.countP (fun o => decide (o.interval.left ≤ r.interval.right)) =
      done.length + 1 + behind.countP fun o => decide (o.interval.left ≤ r.interval.right) := by
  have hdone : done.countP (fun o => decide (o.interval.left ≤ r.interval.right)) =
      done.length := by
    refine List.countP_eq_length.mpr fun o ho => decide_eq_true ?_
    have := h.left_le o ho
    omega
  rw [← (sorted_perm rows).countP_eq, h.split, List.countP_append, hdone, List.countP_cons,
    decide_eq_true (Int.le_of_lt hr), if_pos rfl]
  omega

/-- When the check comes to a row of any list of rows, it goes on from there with its state. The
stack is empty just at the first row, has the root at its bottom, and each row on it encloses the
next one. Without what ended before the row, it is all rows before that have not ended. And if the
row gets as far as the test of its width, no fewer rows begin before it ends than were gone through
with this one, so that the number of its descendants is what is left. -/
theorem stack_holds_what_is_open (h : ComesTo rows done s r behind) :
    check rows = ((r :: behind).foldlM (step (sorted rows)) s).map Sweep.summary ∧
      InOrder rows done s r := by
  refine ⟨h.check_eq, ?_⟩
  have hnodes : s.summary.nodes = done.length := h.stacked.nodes.trans List.length_reverse
  exact {
    empty_iff := by
      rw [← List.getLast?_eq_none_iff, h.getLast?_enclosing, List.head?_eq_none_iff]
    bottom := by
      intro root hroot
      rw [h.getLast?_enclosing] at hroot
      refine h.isRoot_of_head? ?_
      rw [h.split, List.head?_append, Option.mem_def.mp hroot]
      rfl
    nested := h.stacked.nested
    opened := by
      rw [← List.filter_reverse]
      exact h.stacked.opened _ fun o ho => h.left_le o (List.mem_reverse.mp ho)
    counted := by
      rintro ⟨hr, -⟩
      have hcount := h.countP_eq hr
      have hsorted := (sorted_perm rows).countP_eq fun o =>
        decide (o.interval.left ≤ r.interval.right)
      rw [descendants, hsorted, hnodes]
      omega }

/-- Two rows begin alike, and the second one, on which the check ends, is still to come. -/
theorem stack_holds_what_is_open_twins :
    let root : Row := ⟨⟨4⟩, ⟨1, 6, 0⟩, Dict.empty⟩
    let r : Row := ⟨⟨9⟩, ⟨2, 5, 1⟩, Dict.empty⟩
    let rows : List Row := [root, r, ⟨⟨2⟩, ⟨2, 7, 1⟩, Dict.empty⟩]
    let s : Sweep := ⟨[root], ⟨1, 0, 0⟩⟩
    ComesTo rows [root] s r [⟨⟨2⟩, ⟨2, 7, 1⟩, Dict.empty⟩] ∧
      check rows = .error (.overlap ⟨9⟩ ⟨2⟩) ∧ Measured s r ∧ InOrder rows [root] s r := by
  intro root r rows s
  have hsorted : sorted rows = rows := List.mergeSort_of_pairwise (by decide)
  have hcomes : ComesTo rows [root] s r [⟨⟨2⟩, ⟨2, 7, 1⟩, Dict.empty⟩] := by
    refine ⟨hsorted, fun first hfirst => ?_, ?_⟩
    · rw [hsorted] at hfirst ⊢
      cases hfirst
      decide
    · rw [hsorted]
      rfl
  obtain ⟨hcheck, horder⟩ := stack_holds_what_is_open hcomes
  rw [hsorted] at hcheck
  exact ⟨hcomes, hcheck.trans rfl, ⟨by decide, rfl⟩, horder⟩

end ComesTo

end Numbering

end FlatTree
