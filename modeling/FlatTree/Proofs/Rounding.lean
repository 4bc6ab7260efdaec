import FlatTree.Binary64
import Mathlib.Algebra.Group.Nat.Defs
import Mathlib.Data.Nat.Log

/-!
# Rounding to a float

What is rounded is a ratio, and no more of it matters than its value. The exponents by which a
decimal is decided without rounding decide as rounding would. Rounding is undone for every finite
size: the ratio of that size rounds to the magnitude that stands for it, and a whole number rounds
to one that stands for a whole number.
-/

namespace FlatTree

theorem tenTo_pos (k : Nat) : 0 < tenTo k :=
  Nat.pow_pos (by decide)

theorem tenTo_add (j k : Nat) : tenTo (j + k) = tenTo j * tenTo k :=
  Nat.pow_add 10 j k

theorem tenTo_succ (k : Nat) : tenTo (k + 1) = tenTo k * 10 :=
  Nat.pow_succ 10 k

/-- Ten is more than three binary digits. -/
theorem two_pow_le_tenTo (k : Nat) : 2 ^ (3 * k) ≤ tenTo k := by
  rw [Nat.pow_mul]
  exact Nat.pow_le_pow_left (by decide) k

/-! ## Rounding a ratio -/

theorem roundHalfEven_mul_right {k : Nat} (hk : 0 < k) (num den : Nat) :
    roundHalfEven (num * k) (den * k) = roundHalfEven num den := by
  have htwice : 2 * (num % den * k) = 2 * (num % den) * k := (Nat.mul_assoc ..).symm
  simp only [roundHalfEven, Nat.mul_div_mul_right _ _ hk, Nat.mul_mod_mul_right, htwice,
    Nat.mul_lt_mul_right hk, Nat.mul_left_inj (Nat.ne_of_gt hk)]

theorem roundHalfEven_mul_self {den : Nat} (hden : 0 < den) (q : Nat) :
    roundHalfEven (q * den) den = q := by
  simp only [roundHalfEven, Nat.mul_div_cancel _ hden, Nat.mul_mod_left, Nat.mul_zero, hden,
    true_or, if_true]

/-- The whole number nearest to a ratio is one of the two beside it. -/
theorem roundHalfEven_bounds (num den : Nat) :
    num / den ≤ roundHalfEven num den ∧ roundHalfEven num den ≤ num / den + 1 := by
  simp only [roundHalfEven]
  split <;> omega

private theorem roundHalfEven_of_lt {num den : Nat} (h : 2 * num < den) :
    roundHalfEven num den = 0 := by
  have hlt : num < den := by omega
  simp only [roundHalfEven, Nat.div_eq_of_lt hlt, Nat.mod_eq_of_lt hlt, h, true_or, if_true]

namespace Binary64

theorem magnitudeNear_mul_right {k : Nat} (hk : 0 < k) (num den : Nat) :
    magnitudeNear (num * k) (den * k) = magnitudeNear num den := by
  have hnum : (num * k) <<< 1074 = (num <<< 1074) * k := by
    rw [Nat.shiftLeft_eq, Nat.shiftLeft_eq, Nat.mul_right_comm]
  have hden : ∀ cut, (den * k) <<< cut = (den <<< cut) * k := fun cut => by
    rw [Nat.shiftLeft_eq, Nat.shiftLeft_eq, Nat.mul_right_comm]
  simp only [magnitudeNear, hnum, Nat.mul_div_mul_right _ _ hk, hden, roundHalfEven_mul_right hk]

/-- Equal ratios round alike. -/
theorem magnitudeNear_congr {num den num' den' : Nat} (hden : 0 < den) (hden' : 0 < den')
    (h : num * den' = num' * den) : magnitudeNear num den = magnitudeNear num' den' := by
  rw [← magnitudeNear_mul_right hden', h, Nat.mul_comm den, magnitudeNear_mul_right hden]

/-! ## Sizes -/

theorem unitsOf_of_lt {m : Nat} (h : m < 0x10000000000000) : unitsOf m = m := by
  simp only [unitsOf, Nat.div_eq_of_lt h, if_true, Nat.mod_eq_of_lt h]

theorem unitsOf_normal {f : Nat} (h : f < 0x10000000000000) (e : Nat) :
    unitsOf ((e + 1) * 0x10000000000000 + f) = (0x10000000000000 + f) <<< e := by
  have hdiv : ((e + 1) * 0x10000000000000 + f) / 0x10000000000000 = e + 1 := by omega
  have hmod : ((e + 1) * 0x10000000000000 + f) % 0x10000000000000 = f := by omega
  simp only [unitsOf, hdiv, hmod, Nat.add_one_ne_zero, if_false, Nat.add_sub_cancel]

/-- With all its 53 binary digits, or a carry out of them, a size is the digits shifted by what was
cut off. -/
theorem unitsOf_cut {cut r : Nat} (hlow : 0x10000000000000 ≤ r) (hhigh : r ≤ 0x20000000000000) :
    unitsOf ((cut <<< 52) + r) = r <<< cut := by
  rw [Nat.shiftLeft_eq cut]
  rcases Nat.lt_or_eq_of_le hhigh with hlt | rfl
  · have hm : cut * 2 ^ 52 + r = (cut + 1) * 0x10000000000000 + (r - 0x10000000000000) := by omega
    rw [hm, unitsOf_normal (by omega), Nat.add_sub_cancel' hlow]
  · have hm : cut * 2 ^ 52 + 0x20000000000000 = (cut + 1 + 1) * 0x10000000000000 + 0 := by omega
    rw [hm, unitsOf_normal (by decide), Nat.shiftLeft_eq, Nat.shiftLeft_eq, Nat.pow_succ]
    omega

/-- Every magnitude is a size below 53 binary digits, or has all of them. -/
theorem magnitude_cases (m : Nat) : m < 0x10000000000000 ∨
    ∃ e f, f < 0x10000000000000 ∧ m = (e + 1) * 0x10000000000000 + f := by
  by_cases h : m < 0x10000000000000
  · exact .inl h
  · refine .inr ⟨m / 0x10000000000000 - 1, m % 0x10000000000000, Nat.mod_lt _ (by decide), ?_⟩
    omega

/-- A size in units is rounded to the digits that are left of it. -/
theorem magnitudeNear_units (u : Nat) : magnitudeNear u (1 <<< 1074) =
    min infinite (((u.log2 - 52) <<< 52) + roundHalfEven u (1 <<< (u.log2 - 52))) := by
  have hdiv : ∀ p, u <<< p / 1 <<< p = u := fun p => by
    rw [Nat.shiftLeft_eq, Nat.shiftLeft_eq, Nat.one_mul, Nat.mul_div_cancel _ (Nat.two_pow_pos p)]
  have hround : ∀ p cut, roundHalfEven (u <<< p) (1 <<< p <<< cut) =
      roundHalfEven u (1 <<< cut) := fun p cut => by
    have hden : 1 <<< p <<< cut = 1 <<< cut * 2 ^ p := by
      simp only [Nat.shiftLeft_eq, Nat.one_mul, Nat.mul_comm]
    rw [hden, Nat.shiftLeft_eq u, roundHalfEven_mul_right (Nat.two_pow_pos p)]
  simp only [magnitudeNear, hdiv, hround]

/-- The ratio of a finite size rounds to the magnitude that stands for the size. -/
theorem magnitudeNear_unitsOf {m : Nat} (h : m < infinite) :
    magnitudeNear (unitsOf m) (1 <<< 1074) = m := by
  rw [magnitudeNear_units]
  rcases magnitude_cases m with hlt | ⟨e, f, hf, rfl⟩
  · have hcut : m.log2 - 52 = 0 := by
      by_cases hm : m = 0
      · rw [hm]
        rfl
      · have hlog : m.log2 < 52 := (Nat.log2_lt hm).mpr hlt
        omega
    have hround : roundHalfEven m 1 = m := by
      simpa using roundHalfEven_mul_self (show 0 < 1 by decide) m
    rw [unitsOf_of_lt hlt, hcut, Nat.shiftLeft_zero, hround, Nat.zero_shiftLeft, Nat.zero_add,
      Nat.min_eq_right (Nat.le_of_lt h)]
  · have hpos : 0x10000000000000 + f ≠ 0 := by omega
    have hlog : ((0x10000000000000 + f) * 2 ^ e).log2 = 52 + e := by
      rw [Nat.log2_eq_iff (Nat.mul_ne_zero hpos (Nat.ne_of_gt (Nat.two_pow_pos e))), Nat.pow_add,
        Nat.add_right_comm, Nat.pow_add]
      exact ⟨Nat.mul_le_mul_right _ (by omega),
        Nat.mul_lt_mul_of_pos_right (by omega) (Nat.two_pow_pos e)⟩
    rw [unitsOf_normal hf, Nat.shiftLeft_eq (0x10000000000000 + f), hlog, Nat.add_sub_cancel_left,
      Nat.shiftLeft_eq 1, Nat.one_mul, roundHalfEven_mul_self (Nat.two_pow_pos e),
      Nat.shiftLeft_eq]
    omega

/-- A magnitude that is not cut off at infinity is the digits of the rounded quotient behind the
number of digits that were cut off. -/
theorem unitsOf_magnitudeNear {num den cut : Nat}
    (hcut : cut = (num <<< 1074 / den).log2 - 52) (h : magnitudeNear num den < infinite) :
    unitsOf (magnitudeNear num den) = roundHalfEven (num <<< 1074) (den <<< cut) <<< cut := by
  have hm : magnitudeNear num den =
      (cut <<< 52) + roundHalfEven (num <<< 1074) (den <<< cut) := by
    rw [magnitudeNear, ← hcut] at h ⊢
    exact Nat.min_eq_right (by omega)
  rw [hm]
  generalize num <<< 1074 = n at hcut ⊢
  have hbounds := roundHalfEven_bounds n (den <<< cut)
  have hquotient : n / den <<< cut = n / den / 2 ^ cut := by
    rw [Nat.shiftLeft_eq, Nat.div_div_eq_div_mul]
  rw [hquotient] at hbounds
  have hlt : n / den < 2 ^ (cut + 53) :=
    Nat.lt_of_lt_of_le Nat.lt_log2_self (Nat.pow_le_pow_right (by decide) (by omega))
  have hhigh : n / den / 2 ^ cut < 2 ^ 53 := by
    rw [Nat.div_lt_iff_lt_mul (Nat.two_pow_pos cut), ← Nat.pow_add, Nat.add_comm]
    exact hlt
  by_cases hzero : cut = 0
  · subst hzero
    by_cases hlow : roundHalfEven n (den <<< 0) < 0x10000000000000
    · rw [Nat.zero_shiftLeft, Nat.zero_add, unitsOf_of_lt hlow]
      rfl
    · exact unitsOf_cut (by omega) (by omega)
  · have hne : n / den ≠ 0 := fun h0 => hzero (by rw [hcut, h0]; rfl)
    have hle : 2 ^ (52 + cut) ≤ n / den :=
      (Nat.le_log2 hne).mp (by omega)
    have hlow : 2 ^ 52 ≤ n / den / 2 ^ cut := by
      rw [Nat.le_div_iff_mul_le (Nat.two_pow_pos cut), ← Nat.pow_add]
      exact hle
    exact unitsOf_cut (by omega) (by omega)

/-- A whole number rounds to a whole number. -/
theorem dvd_unitsOf_magnitudeNear {n : Nat} (h : magnitudeNear n 1 < infinite) :
    1 <<< 1074 ∣ unitsOf (magnitudeNear n 1) := by
  rw [unitsOf_magnitudeNear rfl h, Nat.div_one]
  -- either all that is kept lies above the point, or nothing of the number is cut off
  have hgeneral : ∀ p cut, 1 <<< p ∣ roundHalfEven (n <<< p) (1 <<< cut) <<< cut := by
    intro p cut
    simp only [Nat.shiftLeft_eq, Nat.one_mul]
    by_cases hle : p ≤ cut
    · exact Nat.dvd_mul_left_of_dvd (Nat.pow_dvd_pow 2 hle) _
    · have hsplit : n * 2 ^ p = n * 2 ^ (p - cut) * 2 ^ cut := by
        rw [Nat.mul_assoc, ← Nat.pow_add, Nat.sub_add_cancel (by omega)]
      rw [hsplit, roundHalfEven_mul_self (Nat.two_pow_pos cut), ← hsplit]
      exact Nat.dvd_mul_left ..
  exact hgeneral ..

/-! ## Decimals -/

/-- A number of so many binary digits lies beyond every finite one. -/
theorem magnitudeNear_of_large {n : Nat} (h : 1203 ≤ n.log2) : magnitudeNear n 1 = infinite := by
  have hn : n ≠ 0 := fun h0 => by
    rw [h0] at h
    cases h
  have hlog : ∀ p, n.log2 + p ≤ (n <<< p).log2 := fun p => by
    rw [Nat.shiftLeft_eq, Nat.le_log2 (Nat.mul_ne_zero hn (Nat.ne_of_gt (Nat.two_pow_pos p))),
      Nat.pow_add]
    exact Nat.mul_le_mul_right _ (Nat.log2_self_le hn)
  have hcut := hlog 1074
  simp only [magnitudeNear, Nat.div_one]
  generalize n <<< 1074 = m at hcut
  rw [Nat.shiftLeft_eq _ 52]
  apply Nat.min_eq_left
  rw [infinite]
  omega

/-- A ratio below half the smallest size rounds to nothing. -/
theorem magnitudeNear_of_small {num den : Nat} (h : 2 * (num <<< 1074) < den) :
    magnitudeNear num den = 0 := by
  have hdiv : num <<< 1074 / den = 0 := Nat.div_eq_of_lt (by omega)
  simp only [magnitudeNear, hdiv, Nat.log2_zero, Nat.zero_sub, Nat.zero_shiftLeft,
    Nat.shiftLeft_zero, roundHalfEven_of_lt h, Nat.add_zero, Nat.min_zero]

private theorem two_mul_shiftLeft_lt_tenTo {n p k : Nat} (h : n.log2 + 2 + p ≤ 3 * k) :
    2 * (n <<< p) < tenTo k := by
  have hlt : 2 * n < 2 ^ (n.log2 + 2) := by
    have := @Nat.lt_log2_self n
    rw [Nat.pow_succ]
    omega
  calc 2 * (n <<< p) = 2 * n * 2 ^ p := by rw [Nat.shiftLeft_eq, Nat.mul_assoc]
    _ < 2 ^ (n.log2 + 2) * 2 ^ p := Nat.mul_lt_mul_of_pos_right hlt (Nat.two_pow_pos p)
    _ = 2 ^ (n.log2 + 2 + p) := (Nat.pow_add ..).symm
    _ ≤ 2 ^ (3 * k) := Nat.pow_le_pow_right (by decide) h
    _ ≤ tenTo k := two_pow_le_tenTo k

private theorem le_log2_mul_tenTo {n : Nat} (hn : n ≠ 0) (k : Nat) :
    3 * k ≤ (n * tenTo k).log2 := by
  rw [Nat.le_log2 (Nat.mul_ne_zero hn (Nat.ne_of_gt (tenTo_pos k)))]
  exact Nat.le_trans (two_pow_le_tenTo k) (Nat.le_mul_of_pos_left _ (Nat.pos_of_ne_zero hn))

/-- A decimal is rounded as its ratio is, also if its exponent alone decides. -/
theorem magnitudeOf_eq (d : Decimal) : magnitudeOf d = magnitudeNear d.ratio.1 d.ratio.2 := by
  obtain ⟨n, e⟩ := d
  simp only [magnitudeOf, Decimal.ratio]
  by_cases hzero : n = 0
  · have hsmall : magnitudeNear 0 (tenTo (-e).toNat) = 0 :=
      magnitudeNear_of_small (by rw [Nat.zero_shiftLeft]; exact tenTo_pos _)
    rw [if_pos hzero, hzero, Nat.zero_mul, hsmall]
  · rw [if_neg hzero]
    split
    · next hlarge =>
      have hlog := le_log2_mul_tenTo hzero e.toNat
      have hden : tenTo (-e).toNat = 1 := by
        rw [show (-e).toNat = 0 by omega]
        rfl
      rw [hden, magnitudeNear_of_large (by omega)]
    · split
      · next hsmall =>
        have hnum : n * tenTo e.toNat = n := by
          rw [show e.toNat = 0 by omega]
          exact Nat.mul_one n
        rw [hnum, magnitudeNear_of_small (two_mul_shiftLeft_lt_tenTo (by omega))]
      · rfl

end Binary64

end FlatTree
