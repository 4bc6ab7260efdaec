import FlatTree.Proofs.Check
import FlatTree.Proofs.Steps

/-!
# What the check reports

The check stops in the middle of a pass. Of the rows behind it knows only how many begin before a
number, and of the rows before only what its stack kept. What it reports holds all the same of the
whole list, in whatever order the rows were given: the stack is all that is still open of the rows
before, the innermost row first and each inside the next, and nothing behind can be around what
began before it.
-/

namespace FlatTree

namespace Interval

/-- A number is one of the bounds or lies between them. -/
def Covers (i : Interval) (x : Int) : Prop :=
  i.left ≤ x ∧ x ≤ i.right

/-- Both bounds of an interval lie strictly between those of another. If the left one is not the
greater, `contains` says the same. -/
def Encloses (outer inner : Interval) : Prop :=
  (outer.left < inner.left ∧ inner.left < outer.right) ∧
    outer.left < inner.right ∧ inner.right < outer.right

instance (outer inner : Interval) : Decidable (outer.Encloses inner) :=
  inferInstanceAs (Decidable (_ ∧ _))

theorem encloses_iff_contains {outer inner : Interval} (h : inner.left ≤ inner.right) :
    outer.Encloses inner ↔ outer.contains inner = true := by
  rw [contains_iff, Encloses]
  omega

end Interval

namespace Numbering

/-- The only row that begins with 1. -/
def IsRoot (rows : List Row) (root : Row) : Prop :=
  rows.filter (fun r => r.interval.left = 1) = [root]

/-- A violation is there: the rows that it names, which are different entries of the list, are as it
says, and lie to each other and to all other rows as it says. -/
def Genuine (rows : List Row) : Violation → Prop
  | .missingRoot => ∀ r ∈ rows, r.interval.left ≠ 1
  | .duplicateRoot n => 2 ≤ n ∧ (rows.countP fun r => r.interval.left = 1) = n
  | .rootDepth id depth => depth ≠ 0 ∧ ∃ root, IsRoot rows root ∧ root.id = id ∧
      root.interval.depth = depth ∧ ∀ r ∈ rows, 1 ≤ r.interval.left
  | .inverted id left right => right ≤ left ∧ ∃ r ∈ rows, r.id = id ∧ r.interval.left = left ∧
      r.interval.right = right
  | .outside id => ∃ root, IsRoot rows root ∧ ∃ r ∈ rows, r.id = id ∧
      ¬root.interval.Covers r.interval.left
  | .overlap outer inner => ∃ a b rest, rows.Perm (a :: b :: rest) ∧ a.id = outer ∧ b.id = inner ∧
      (∃ x, a.interval.Covers x ∧ b.interval.Covers x) ∧ ¬a.interval.Encloses b.interval ∧
      ¬b.interval.Encloses a.interval
  | .depth id expected found => expected ≠ found ∧ ∃ p r rest, rows.Perm (p :: r :: rest) ∧
      r.id = id ∧ r.interval.depth = found ∧ expected = 1 + p.interval.depth ∧
      p.interval.Encloses r.interval ∧
      ∀ o ∈ rest, o.interval.Encloses r.interval → o.interval.Encloses p.interval
  | .width id width descendants => ∃ r rest, rows.Perm (r :: rest) ∧ r.id = id ∧
      r.interval.right - r.interval.left = width ∧
      ((rows.countP fun o => r.interval.Encloses o.interval) = descendants ∧
          width ≠ 1 + 2 * (rows.countP fun o => r.interval.Encloses o.interval : Int) ∨
        ∃ o ∈ rest, r.interval.Covers o.interval.left ∧ ¬r.interval.Encloses o.interval)

theorem isRoot_of_countP {rows : List Row} {r : Row}
    (h : (rows.countP fun r => decide (r.interval.left = 1)) = 1) (hr : r ∈ rows)
    (hone : r.interval.left = 1) : IsRoot rows r := by
  rw [List.countP_eq_length_filter] at h
  obtain ⟨root, hroot⟩ := List.length_eq_one_iff.mp h
  have hmem : r ∈ rows.filter fun r => decide (r.interval.left = 1) :=
    List.mem_filter.mpr ⟨hr, decide_eq_true hone⟩
  rw [hroot, List.mem_singleton] at hmem
  exact hmem ▸ hroot

theorem Genuine.perm {rows rows' : List Row} {v : Violation} (h : rows.Perm rows')
    (hv : Genuine rows v) : Genuine rows' v := by
  have hroot : ∀ root, IsRoot rows root → IsRoot rows' root := by
    intro root hr
    have hfilter := h.filter fun r => decide (r.interval.left = 1)
    rw [hr, List.singleton_perm] at hfilter
    exact hfilter.symm
  cases v with
  | missingRoot => exact fun r hr => hv r (h.symm.subset hr)
  | duplicateRoot n => exact ⟨hv.1, h.countP_eq _ ▸ hv.2⟩
  | rootDepth id depth =>
    obtain ⟨hne, root, hr, hid, hdepth, hleft⟩ := hv
    exact ⟨hne, root, hroot root hr, hid, hdepth, fun r hr => hleft r (h.symm.subset hr)⟩
  | inverted id left right =>
    obtain ⟨hle, r, hr, hbounds⟩ := hv
    exact ⟨hle, r, h.subset hr, hbounds⟩
  | outside id =>
    obtain ⟨root, hr, r, hmem, hout⟩ := hv
    exact ⟨root, hroot root hr, r, h.subset hmem, hout⟩
  | overlap outer inner =>
    obtain ⟨a, b, rest, hperm, hover⟩ := hv
    exact ⟨a, b, rest, h.symm.trans hperm, hover⟩
  | depth id expected found =>
    obtain ⟨hne, p, r, rest, hperm, hdepth⟩ := hv
    exact ⟨hne, p, r, rest, h.symm.trans hperm, hdepth⟩
  | width id width descendants =>
    obtain ⟨r, rest, hperm, hid, hwidth, hcount⟩ := hv
    rw [h.countP_eq] at hcount
    exact ⟨r, rest, h.symm.trans hperm, hid, hwidth, hcount⟩

/-! ## One step -/

/-- Why a pass stops at a row. -/
inductive Stops (rows : List Row) (s : Sweep) (r : Row) : Violation → Prop
  | inverted : r.interval.right ≤ r.interval.left →
    Stops rows s r (.inverted r.id r.interval.left r.interval.right)
  | outside : stillOpen s.enclosing r.interval.left = [] → s.summary.nodes ≠ 0 →
    Stops rows s r (.outside r.id)
  | overlap {p : Row} {outer : List Row} : r.interval.left < r.interval.right →
    stillOpen s.enclosing r.interval.left = p :: outer →
    p.interval.contains r.interval = false → Stops rows s r (.overlap p.id r.id)
  | depth {p : Row} {outer : List Row} : r.interval.left < r.interval.right →
    stillOpen s.enclosing r.interval.left = p :: outer → p.interval.contains r.interval = true →
    r.interval.depth ≠ p.interval.depth + 1 →
    Stops rows s r (.depth r.id (p.interval.depth + 1) r.interval.depth)
  | width : r.interval.left < r.interval.right →
    r.interval.right - r.interval.left ≠ 1 + 2 * (descendants rows s.summary.nodes r : Int) →
    Stops rows s r
      (.width r.id (r.interval.right - r.interval.left) (descendants rows s.summary.nodes r))

private theorem stops_of_step {rows : List Row} {s : Sweep} {r : Row} {v : Violation}
    (h : step rows s r = .error v) : Stops rows s r v := by
  simp only [step] at h
  split at h
  case isTrue hle =>
    cases h
    exact .inverted hle
  case isFalse hlt =>
    rw [Int.not_le] at hlt
    cases hparent :
      checkParent (s.summary.nodes == 0) (stillOpen s.enclosing r.interval.left) r with
    | ok u =>
      rw [hparent] at h
      dsimp only at h
      split at h
      case isTrue hne =>
        cases h
        exact .width hlt hne
      case isFalse => cases h
    | error v' =>
      rw [hparent] at h
      cases h
      cases hopen : stillOpen s.enclosing r.interval.left with
      | nil =>
        rw [hopen, checkParent] at hparent
        split at hparent
        case isTrue => cases hparent
        case isFalse hne =>
          cases hparent
          exact .outside hopen (by simpa using hne)
      | cons p outer =>
        rw [hopen] at hparent
        simp only [checkParent] at hparent
        split at hparent
        case isTrue hnot =>
          cases hparent
          exact .overlap hlt hopen hnot
        case isFalse hin =>
          split at hparent
          case isTrue hne =>
            cases hparent
            exact .depth hlt hopen (by simpa using hin) hne
          case isFalse => cases hparent

/-- A row that is passed goes onto the stack, above what is still open there and encloses it. -/
theorem exists_push_of_step {rows : List Row} {s s' : Sweep} {r : Row}
    (h : step rows s r = .ok s') :
    ∃ n, s' = s.push (stillOpen s.enclosing r.interval.left) r n ∧
      ∀ p ∈ (stillOpen s.enclosing r.interval.left).head?,
        p.interval.contains r.interval = true := by
  simp only [step] at h
  split at h
  case isTrue => cases h
  case isFalse =>
    cases hparent :
      checkParent (s.summary.nodes == 0) (stillOpen s.enclosing r.interval.left) r with
    | error v =>
      rw [hparent] at h
      cases h
    | ok u =>
      rw [hparent] at h
      dsimp only at h
      split at h
      case isTrue => cases h
      case isFalse =>
        cases h
        refine ⟨_, rfl, fun p hp => ?_⟩
        have hhead := checkParent_eq_ok_iff.mp hparent
        rw [Option.mem_def.mp hp] at hhead
        exact hhead.1

/-! ## The stack -/

/-- What the state has to do with the rows before, the latest first: each row on the stack lies
inside the next one, and from the last left bound on, what is still open of the stack is what is
still open of all the rows. -/
structure Stacked (s : Sweep) (before : List Row) : Prop where
  nodes : s.summary.nodes = before.length
  nested : s.enclosing.Pairwise fun inner outer => outer.interval.contains inner.interval = true
  opened : ∀ x, (∀ o ∈ before, o.interval.left ≤ x) →
    stillOpen s.enclosing x = before.filter fun o => decide (x ≤ o.interval.right)

theorem stacked_start : Stacked start [] :=
  ⟨rfl, .nil, fun _ _ => rfl⟩

theorem stillOpen_sublist (enclosing : List Row) (x : Int) :
    (stillOpen enclosing x).Sublist enclosing :=
  (List.dropWhile_suffix _).sublist

private theorem stillOpen_stillOpen (enclosing : List Row) {x y : Int} (h : x ≤ y) :
    stillOpen (stillOpen enclosing x) y = stillOpen enclosing y := by
  induction enclosing with
  | nil => rfl
  | cons p enclosing ih =>
    by_cases hp : p.interval.right < x
    · have hpy : p.interval.right < y := by omega
      have hx : stillOpen (p :: enclosing) x = stillOpen enclosing x :=
        List.dropWhile_cons_of_pos (by simpa using hp)
      have hy : stillOpen (p :: enclosing) y = stillOpen enclosing y :=
        List.dropWhile_cons_of_pos (by simpa using hpy)
      rw [hx, hy, ih]
    · have hx : stillOpen (p :: enclosing) x = p :: enclosing :=
        List.dropWhile_cons_of_neg (by simpa using hp)
      rw [hx]

namespace Stacked

variable {s : Sweep} {before : List Row} {r : Row}

/-- If the innermost open row contains a row, all open rows do. -/
theorem contains_of_mem (h : Stacked s before)
    (hhead : ∀ p ∈ (stillOpen s.enclosing r.interval.left).head?,
      p.interval.contains r.interval = true) :
    ∀ o ∈ stillOpen s.enclosing r.interval.left,
      o.interval.contains r.interval = true := by
  have hnested := h.nested.sublist (stillOpen_sublist s.enclosing r.interval.left)
  cases hopen : stillOpen s.enclosing r.interval.left with
  | nil => exact fun o ho => nomatch ho
  | cons p outer =>
    rw [hopen] at hnested hhead
    have hp := hhead p rfl
    refine List.forall_mem_cons.mpr ⟨hp, fun o ho => ?_⟩
    have ho := (List.pairwise_cons.mp hnested).1 o ho
    rw [Interval.contains_iff] at hp ho ⊢
    omega

/-- A row that is passed keeps the stack in order. -/
theorem push (h : Stacked s before) (hleft : ∀ o ∈ before, o.interval.left ≤ r.interval.left)
    (hhead : ∀ p ∈ (stillOpen s.enclosing r.interval.left).head?,
      p.interval.contains r.interval = true) (n : Nat) :
    Stacked (s.push (stillOpen s.enclosing r.interval.left) r n) (r :: before) where
  nodes := congrArg (· + 1) h.nodes
  nested := List.pairwise_cons.mpr
    ⟨h.contains_of_mem hhead, h.nested.sublist (stillOpen_sublist _ _)⟩
  opened := by
    intro x hx
    obtain ⟨hrx, hbx⟩ := List.forall_mem_cons.mp hx
    by_cases hr : r.interval.right < x
    · have hdrop : stillOpen (r :: stillOpen s.enclosing r.interval.left) x =
          stillOpen (stillOpen s.enclosing r.interval.left) x :=
        List.dropWhile_cons_of_pos (by simpa using hr)
      rw [Sweep.push, hdrop, stillOpen_stillOpen _ hrx, h.opened x hbx,
        List.filter_cons_of_neg (by simpa using hr)]
    · have hkeep : stillOpen (r :: stillOpen s.enclosing r.interval.left) x =
          r :: stillOpen s.enclosing r.interval.left :=
        List.dropWhile_cons_of_neg (by simpa using hr)
      -- What is open where `r` begins contains `r`, so it is open as long as `r` is.
      have hopen := h.contains_of_mem hhead
      rw [Sweep.push, hkeep, List.filter_cons_of_pos (by simpa using hr), h.opened _ hleft]
      rw [h.opened _ hleft] at hopen
      refine congrArg (r :: ·) (List.filter_congr fun o ho => ?_)
      rw [decide_eq_decide]
      constructor
      · intro hle
        have := (Interval.contains_iff.mp
          (hopen o (List.mem_filter.mpr ⟨ho, decide_eq_true hle⟩))).2
        omega
      · omega

end Stacked

/-- The stack is in order after any number of rows. -/
theorem stacked_of_foldlM {rows before done : List Row} {s s' : Sweep} (h : Stacked s before)
    (hsorted : (before.reverse ++ done).Pairwise fun a b => a.interval.left ≤ b.interval.left)
    (hrun : done.foldlM (step rows) s = .ok s') : Stacked s' (done.reverse ++ before) := by
  induction done generalizing before s with
  | nil =>
    cases hrun
    exact h
  | cons r done ih =>
    rw [List.foldlM_cons, bind_eq_ok_iff] at hrun
    obtain ⟨s₁, hstep, hrun⟩ := hrun
    obtain ⟨n, rfl, hhead⟩ := exists_push_of_step hstep
    have hleft : ∀ o ∈ before, o.interval.left ≤ r.interval.left := fun o ho =>
      (List.pairwise_append.mp hsorted).2.2 o (List.mem_reverse.mpr ho) r List.mem_cons_self
    have hnext := ih (h.push hleft hhead n) (by simpa using hsorted) hrun
    simpa using hnext

/-! ## Where a pass stops -/

variable {s : Sweep} {before behind : List Row} {r p : Row} {outer : List Row}

/-- All rows, with the innermost open one in front: the others either contain it, or have ended
before `r`, or begin no sooner than `r`. -/
theorem Stacked.exists_perm (h : Stacked s before)
    (hleft : ∀ o ∈ before, o.interval.left ≤ r.interval.left)
    (hopen : stillOpen s.enclosing r.interval.left = p :: outer)
    (hbehind : ∀ o ∈ behind, r.interval.left ≤ o.interval.left) :
    ∃ rest, (before.reverse ++ r :: behind).Perm (p :: r :: rest) ∧ ∀ o ∈ rest,
      o.interval.contains p.interval = true ∨ o.interval.right < r.interval.left ∨
        r.interval.left ≤ o.interval.left := by
  have hfilter := h.opened _ hleft
  rw [hopen] at hfilter
  have hnested := h.nested.sublist (stillOpen_sublist s.enclosing r.interval.left)
  rw [hopen] at hnested
  let isOpen (o : Row) : Bool := decide (r.interval.left ≤ o.interval.right)
  have hsplit : before.reverse.Perm (p :: outer ++ before.filter (!isOpen ·)) :=
    hfilter ▸ (List.reverse_perm before).trans (List.filter_append_perm isOpen before).symm
  refine ⟨outer ++ before.filter (!isOpen ·) ++ behind, ?_, fun o ho => ?_⟩
  · exact (hsplit.append_right (r :: behind)).trans (List.perm_middle.trans (.swap ..))
  · rcases List.mem_append.mp ho with ho | ho
    · rcases List.mem_append.mp ho with ho | ho
      · exact .inl ((List.pairwise_cons.mp hnested).1 o ho)
      · exact .inr (.inl (by simpa [isOpen] using (List.mem_filter.mp ho).2))
    · exact .inr (.inr (hbehind o ho))

/-- The innermost open row began before `r`, and has not ended. -/
theorem Stacked.bounds (h : Stacked s before)
    (hleft : ∀ o ∈ before, o.interval.left ≤ r.interval.left)
    (hopen : stillOpen s.enclosing r.interval.left = p :: outer) :
    p ∈ before ∧ p.interval.left ≤ r.interval.left ∧ r.interval.left ≤ p.interval.right := by
  have hp : p ∈ before.filter fun o => decide (r.interval.left ≤ o.interval.right) := by
    rw [← h.opened _ hleft, hopen]
    exact List.mem_cons_self
  obtain ⟨hmem, hright⟩ := List.mem_filter.mp hp
  exact ⟨hmem, hleft p hmem, of_decide_eq_true hright⟩

/-- The rows inside `r` are those behind it that begin before it ends, unless some row that begins
within `r` sticks out. -/
theorem countP_encloses (hleft : ∀ o ∈ before, o.interval.left ≤ r.interval.left)
    (hbehind : ∀ o ∈ behind, r.interval.left ≤ o.interval.left)
    (hin : ∀ o ∈ before.reverse ++ behind, r.interval.Covers o.interval.left →
      r.interval.Encloses o.interval) :
    (before.reverse ++ r :: behind).countP (fun o => r.interval.Encloses o.interval) =
      behind.countP fun o => decide (o.interval.left ≤ r.interval.right) := by
  have hself : ¬r.interval.Encloses r.interval := fun h => Int.lt_irrefl _ h.1.1
  have hbefore : before.countP (fun o => decide (r.interval.Encloses o.interval)) = 0 := by
    refine List.countP_eq_zero.mpr fun o ho h => ?_
    have := hleft o ho
    have := (of_decide_eq_true h).1.1
    omega
  have hcount : behind.countP (fun o => decide (r.interval.Encloses o.interval)) =
      behind.countP fun o => decide (o.interval.left ≤ r.interval.right) := by
    refine List.countP_congr fun o ho => ?_
    rw [decide_eq_true_iff, decide_eq_true_iff]
    have := hbehind o ho
    exact ⟨fun h => Int.le_of_lt h.1.2,
      fun h => hin o (List.mem_append_right _ ho) ⟨this, h⟩⟩
  rw [List.countP_append, List.countP_reverse, hbefore, List.countP_cons, hcount,
    decide_eq_false hself]
  simp

/-- Where a pass stops with the stack in order, it reports what is there. -/
theorem Stops.genuine {root : Row} {v : Violation} (h : Stacked s before)
    (hsorted : (before.reverse ++ r :: behind).Pairwise fun a b =>
      a.interval.left ≤ b.interval.left)
    (hroot : IsRoot (before.reverse ++ r :: behind) root)
    (hfirst : (before.reverse ++ r :: behind).head? = some root)
    (hv : Stops (before.reverse ++ r :: behind) s r v) :
    Genuine (before.reverse ++ r :: behind) v := by
  obtain ⟨-, hrest, hcross⟩ := List.pairwise_append.mp hsorted
  have hleft : ∀ o ∈ before, o.interval.left ≤ r.interval.left := fun o ho =>
    hcross o (List.mem_reverse.mpr ho) r List.mem_cons_self
  have hbehind := (List.pairwise_cons.mp hrest).1
  have hmem : r ∈ before.reverse ++ r :: behind := by simp
  cases hv with
  | inverted hle => exact ⟨hle, r, hmem, rfl, rfl, rfl⟩
  | outside hopen hne =>
    rw [h.opened _ hleft, List.filter_eq_nil_iff] at hopen
    have hmemroot : root ∈ before := by
      cases hbefore : before.reverse with
      | nil =>
        rw [List.reverse_eq_nil_iff] at hbefore
        rw [h.nodes, hbefore] at hne
        exact absurd rfl hne
      | cons a rest =>
        rw [hbefore] at hfirst
        obtain rfl : a = root := Option.some.inj hfirst
        exact List.mem_reverse.mp (hbefore ▸ List.mem_cons_self)
    refine ⟨root, hroot, r, hmem, rfl, fun hcovers => ?_⟩
    exact hopen root hmemroot (decide_eq_true hcovers.2)
  | @overlap p outer hlt hopen hnot =>
    obtain ⟨-, hpl, hpr⟩ := h.bounds hleft hopen
    obtain ⟨rest, hperm, -⟩ := h.exists_perm hleft hopen hbehind
    refine ⟨p, r, rest, hperm, rfl, rfl, ⟨r.interval.left, ⟨hpl, hpr⟩, Int.le_refl _,
      Int.le_of_lt hlt⟩, ?_, fun henc => ?_⟩
    · rw [Interval.encloses_iff_contains (Int.le_of_lt hlt), hnot]
      exact Bool.false_ne_true
    · have := henc.1.1
      omega
  | @depth p outer hlt hopen hin hne =>
    obtain ⟨rest, hperm, hrest⟩ := h.exists_perm hleft hopen hbehind
    have hpr := Interval.contains_iff.mp hin
    refine ⟨hne.symm, p, r, rest, hperm, rfl, rfl, Nat.add_comm .., ?_, fun o ho henc => ?_⟩
    · exact (Interval.encloses_iff_contains (Int.le_of_lt hlt)).mpr hin
    · have := henc.1
      have := henc.2
      rcases hrest o ho with hcontains | hended | hlater
      · exact (Interval.encloses_iff_contains (by omega)).mpr hcontains
      · omega
      · omega
  | width hlt hne =>
    have hcount : descendants (before.reverse ++ r :: behind) s.summary.nodes r =
        behind.countP fun o => decide (o.interval.left ≤ r.interval.right) := by
      rw [h.nodes, descendants_eq hleft (Int.le_of_lt hlt)]
    rw [hcount] at hne ⊢
    refine ⟨r, before.reverse ++ behind, List.perm_middle, rfl, rfl, ?_⟩
    by_cases hin : ∀ o ∈ before.reverse ++ behind, r.interval.Covers o.interval.left →
        r.interval.Encloses o.interval
    · have hinside := countP_encloses hleft hbehind hin
      exact .inl ⟨hinside, by rwa [hinside]⟩
    · simp only [Classical.not_forall] at hin
      obtain ⟨o, ho, hcovers, hout⟩ := hin
      exact .inr ⟨o, ho, hcovers, hout⟩

/-! ## The report -/

theorem checkRoot_genuine {rows rest : List Row} {first : Row} {v : Violation}
    (hrows : rows = first :: rest)
    (hsorted : rows.Pairwise fun a b => a.interval.left ≤ b.interval.left)
    (h : checkRoot rows first = .error v) : Genuine rows v := by
  have hleast : ∀ r ∈ rows, first.interval.left ≤ r.interval.left := by
    subst hrows
    exact List.forall_mem_cons.mpr ⟨Int.le_refl _, (List.pairwise_cons.mp hsorted).1⟩
  have hmem : first ∈ rows := hrows ▸ List.mem_cons_self
  simp only [checkRoot] at h
  split at h
  case h_1 hcount =>
    cases h
    exact fun r hr => by simpa using List.countP_eq_zero.mp hcount r hr
  case h_2 hcount =>
    obtain ⟨root, hroot, hone⟩ :=
      List.countP_pos_iff.mp (Nat.lt_of_lt_of_eq Nat.one_pos hcount.symm)
    have hone : root.interval.left = 1 := of_decide_eq_true hone
    have hle := hleast root hroot
    split at h
    case isTrue hne =>
      cases h
      refine ⟨root, isRoot_of_countP hcount hroot hone, first, hmem, rfl, fun hcovers => ?_⟩
      have := hcovers.1
      omega
    case isFalse hfirst =>
      rw [not_not] at hfirst
      split at h
      case isTrue hdepth =>
        cases h
        exact ⟨hdepth, first, isRoot_of_countP hcount hmem hfirst, rfl, rfl,
          fun r hr => hfirst ▸ hleast r hr⟩
      case isFalse => cases h
  case h_3 hzero hone =>
    cases h
    exact ⟨(Nat.two_le_iff _).mpr ⟨hzero, hone⟩, rfl⟩

/-- Whatever violation the check reports is there. -/
theorem check_genuine {rows : List Row} {v : Violation} (h : check rows = .error v) :
    Genuine rows v := by
  refine Genuine.perm (sorted_perm rows) ?_
  have hsorted := pairwise_sorted rows
  simp only [check] at h
  split at h
  case h_1 => cases h
  case h_2 first rest hrows =>
    rw [hrows] at hsorted h ⊢
    split at h
    case h_1 v' hroot =>
      cases h
      exact checkRoot_genuine rfl hsorted hroot
    case h_2 hok =>
      obtain ⟨done, r, behind, s, hsplit, hrun, hstep⟩ :=
        exists_of_foldlM_error (map_eq_error_iff.mp h)
      obtain ⟨hcount, hleft, -⟩ := checkRoot_eq_ok_iff.mp hok
      have hdone : done = (done.reverse ++ []).reverse := by simp
      have hroot := isRoot_of_countP hcount List.mem_cons_self hleft
      have hfirst : (first :: rest).head? = some first := rfl
      rw [hsplit] at hroot hfirst hsorted hrun hstep ⊢
      have hstacked := stacked_of_foldlM stacked_start (List.pairwise_append.mp hsorted).1 hrun
      rw [hdone] at hsorted hroot hfirst hstep ⊢
      exact (stops_of_step hstep).genuine hstacked hsorted hroot hfirst

/-- Given in no order, a row that begins inside another and ends behind it. All widths match the
number of rows that begin within. -/
theorem check_genuine_crossed :
    let rows : List Row := [⟨⟨1⟩, ⟨1, 10, 0⟩, Dict.empty⟩, ⟨⟨5⟩, ⟨8, 9, 1⟩, Dict.empty⟩,
      ⟨⟨3⟩, ⟨4, 7, 2⟩, Dict.empty⟩, ⟨⟨2⟩, ⟨2, 5, 1⟩, Dict.empty⟩, ⟨⟨4⟩, ⟨6, 7, 1⟩, Dict.empty⟩]
    check rows = .error (.overlap ⟨2⟩ ⟨3⟩) ∧ Genuine rows (.overlap ⟨2⟩ ⟨3⟩) := by
  intro rows
  have hsorted : sorted rows =
      [⟨⟨1⟩, ⟨1, 10, 0⟩, Dict.empty⟩, ⟨⟨2⟩, ⟨2, 5, 1⟩, Dict.empty⟩, ⟨⟨3⟩, ⟨4, 7, 2⟩, Dict.empty⟩,
        ⟨⟨4⟩, ⟨6, 7, 1⟩, Dict.empty⟩, ⟨⟨5⟩, ⟨8, 9, 1⟩, Dict.empty⟩] := by
    refine List.Perm.eq_of_pairwise (fun a b ha hb hab hba => ?_) (pairwise_sorted rows) (by decide)
      ((sorted_perm rows).trans (by decide))
    exact List.inj_on_of_nodup_map (f := (·.interval.left)) (by decide)
      ((sorted_perm rows).subset ha) (List.Perm.subset (by decide) hb) (Int.le_antisymm hab hba)
  have hcheck : check rows = .error (.overlap ⟨2⟩ ⟨3⟩) := by
    simp only [check, hsorted]
    decide
  exact ⟨hcheck, check_genuine hcheck⟩

end Numbering

end FlatTree
