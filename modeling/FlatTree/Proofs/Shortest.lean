import FlatTree.Binary64.Shortest
import FlatTree.Proofs.Digits
import FlatTree.Proofs.Rounding
import Mathlib.Data.List.TakeWhile

/-!
# Floats written in decimals

The decimal that is written for a finite float reads back as that float. It is written with a point
just if the number has a fraction: then what is written is a sign, digits, a point, and digits, and
no others can be read as the same decimal.
-/

namespace FlatTree

/-! ## Decimals of one size -/

namespace Decimal

theorem ratio_den_pos (d : Decimal) : 0 < d.ratio.2 :=
  tenTo_pos _

/-- A zero behind the digits is worth one in the exponent. -/
theorem ratio_mul_tenTo (n t : Nat) (e : Int) :
    (Decimal.mk n (e + t)).ratio.1 * (Decimal.mk (n * tenTo t) e).ratio.2 =
      (Decimal.mk (n * tenTo t) e).ratio.1 * (Decimal.mk n (e + t)).ratio.2 := by
  simp only [ratio, Nat.mul_assoc, ← tenTo_add]
  rw [show (e + t).toNat + (-e).toNat = t + e.toNat + (-(e + t)).toNat by omega]

/-- All zeros behind the digits are dropped, and nothing else. -/
theorem dropZeros_spec (n : Nat) (e : Int) :
    ∃ t : Nat, (dropZeros n e).exponent = e + t ∧ n = (dropZeros n e).digits * tenTo t ∧
      (n ≠ 0 → (dropZeros n e).digits % 10 ≠ 0) := by
  fun_induction dropZeros n e with
  | case1 n e h ih =>
    obtain ⟨t, hexponent, hdigits, hlast⟩ := ih
    refine ⟨t + 1, by omega, ?_, fun _ => hlast (by omega)⟩
    rw [tenTo_succ, ← Nat.mul_assoc, ← hdigits]
    omega
  | case2 n e h =>
    refine ⟨0, (Int.add_zero e).symm, (Nat.mul_one n).symm, fun hn hzero => h ⟨hn, hzero⟩⟩

private theorem exponent_le_dropZeros (n : Nat) (e : Int) : e ≤ (dropZeros n e).exponent := by
  obtain ⟨t, hexponent, -⟩ := dropZeros_spec n e
  omega

private theorem le_exponent_dropZeros {n : Nat} (hn : n ≠ 0) (k : Nat) (e : Int) :
    e + k ≤ (dropZeros (n * tenTo k) e).exponent := by
  obtain ⟨t, hexponent, hdigits, hlast⟩ := dropZeros_spec (n * tenTo k) e
  rw [hexponent]
  by_contra hlt
  refine hlast (Nat.mul_ne_zero hn (Nat.ne_of_gt (tenTo_pos k))) ?_
  have hdrop : (dropZeros (n * tenTo k) e).digits = n * tenTo (k - t) := by
    apply Nat.eq_of_mul_eq_mul_right (tenTo_pos t)
    rw [← hdigits, Nat.mul_assoc, ← tenTo_add, Nat.sub_add_cancel (by omega)]
  rw [hdrop, show k - t = k - t - 1 + 1 by omega, tenTo_succ, ← Nat.mul_assoc]
  exact Nat.mul_mod_left ..

end Decimal

namespace Binary64

/-- Decimals of one size are rounded alike. -/
theorem magnitudeOf_congr {d d' : Decimal} (h : d.ratio.1 * d'.ratio.2 = d'.ratio.1 * d.ratio.2) :
    magnitudeOf d = magnitudeOf d' := by
  rw [magnitudeOf_eq, magnitudeOf_eq, magnitudeNear_congr d.ratio_den_pos d'.ratio_den_pos h]

theorem magnitudeOf_dropZeros (n : Nat) (e : Int) :
    magnitudeOf (Decimal.dropZeros n e) = magnitudeOf ⟨n, e⟩ := by
  obtain ⟨t, hexponent, hdigits, -⟩ := Decimal.dropZeros_spec n e
  generalize Decimal.dropZeros n e = d at hexponent hdigits
  obtain ⟨digits, exponent⟩ := d
  dsimp only at hexponent hdigits
  subst hexponent hdigits
  exact magnitudeOf_congr (Decimal.ratio_mul_tenTo digits t e)

/-! ## Finite floats -/

/-- Whether a number has a fraction. No infinity has one, and no NaN. -/
def hasFraction (x : Binary64) : Bool :=
  x.units % (1 <<< 1074) != 0

variable {x : Binary64}

/-- The bits of a number are its sign and its magnitude. -/
theorem ofMagnitude_magnitude (x : Binary64) : ofMagnitude x.isNegative x.magnitude = x := by
  obtain ⟨bits⟩ := x
  have hlt := bits.toNat_lt
  have hbits : (if decide (0x8000000000000000 ≤ bits.toNat) = true then
      0x8000000000000000 + bits.toNat % 0x8000000000000000
        else bits.toNat % 0x8000000000000000) = bits.toNat := by
    split
    · next h =>
      have hle := of_decide_eq_true h
      omega
    · next h =>
      have hgt := of_decide_eq_false (Bool.not_eq_true _ ▸ h)
      omega
  exact congrArg Binary64.mk ((congrArg UInt64.ofNat hbits).trans UInt64.ofNat_toNat)

theorem hasFraction_eq_false_iff : x.hasFraction = false ↔ 1 <<< 1074 ∣ x.units := by
  rw [hasFraction, bne_eq_false_iff_eq, Nat.dvd_iff_mod_eq_zero]

theorem magnitude_lt_of_hasFraction (h : x.hasFraction = true) : x.magnitude < infinite := by
  by_contra hge
  have hdvd : ∀ p, p ≤ 2046 → 1 <<< p ∣ unitsOf x.magnitude := by
    intro p hp
    rcases magnitude_cases x.magnitude with hlt | ⟨e, f, hf, hm⟩
    · rw [infinite] at hge
      omega
    · have he : p ≤ e := by
        rw [infinite] at hge
        omega
      rw [hm, unitsOf_normal hf, Nat.shiftLeft_eq, Nat.shiftLeft_eq, Nat.one_mul]
      exact Nat.dvd_mul_left_of_dvd (Nat.pow_dvd_pow 2 he) _
  rw [hasFraction_eq_false_iff.mpr (hdvd 1074 (by decide))] at h
  cases h

/-! ## The shortest decimal -/

private theorem one_shiftLeft_pos (p : Nat) : 0 < 1 <<< p := by
  rw [Nat.one_shiftLeft]
  exact Nat.two_pow_pos p

/-- A decimal that is as large as the number reads back. -/
theorem magnitudeOf_of_ratio {d : Decimal} (hfinite : x.magnitude < infinite)
    (h : d.ratio.1 * 1 <<< 1074 = x.units * d.ratio.2) : magnitudeOf d = x.magnitude := by
  rw [magnitudeOf_eq, magnitudeNear_congr d.ratio_den_pos (one_shiftLeft_pos 1074) h]
  exact magnitudeNear_unitsOf hfinite

/-- What is found on a grid reads back, and lies on the grid. -/
theorem onGrid?_spec {tie : Tie} {grid : Int} {d : Decimal} (h : x.onGrid? tie grid = some d) :
    magnitudeOf d = x.magnitude ∧ d.exponent = grid := by
  have hback : ∀ d : Decimal, x.readsBack d = true → magnitudeOf d = x.magnitude := fun d hd =>
    beq_iff_eq.mp hd
  simp only [onGrid?] at h
  split at h
  · next hlower _ =>
    cases h
    exact ⟨hback _ hlower, rfl⟩
  · next _ hupper =>
    cases h
    exact ⟨hback _ hupper, rfl⟩
  · cases h
  · next hlower hupper =>
    split at h
    · cases h
      exact ⟨hback _ hlower, rfl⟩
    · cases h
      exact ⟨hback _ hupper, rfl⟩
    · cases h
      split
      · exact ⟨hback _ hlower, rfl⟩
      · exact ⟨hback _ hupper, rfl⟩

/-- The decimal just below a number is looked at on every grid. -/
theorem onGrid?_ne_none (tie : Tie) {grid : Int}
    (h : magnitudeOf ⟨(x.overGrid grid).1 / (x.overGrid grid).2, grid⟩ = x.magnitude) :
    x.onGrid? tie grid ≠ none := by
  have hlower : x.readsBack ⟨(x.overGrid grid).1 / (x.overGrid grid).2, grid⟩ = true :=
    beq_iff_eq.mpr h
  simp only [onGrid?, hlower]
  split
  · exact Option.some_ne_none _
  · next hfalse _ => cases hfalse
  · next hfalse _ => cases hfalse
  · split <;> exact Option.some_ne_none _

private theorem exists_pow_five (k : Nat) :
    ∃ five, five = Nat.pow 5 k ∧ 1 <<< k * five = tenTo k := by
  refine ⟨Nat.pow 5 k, rfl, ?_⟩
  rw [Nat.one_shiftLeft]
  exact (Nat.mul_pow 2 5 k).symm

/-- What is written when nothing is found has a factor in which only its product with a power of two
counts. It is too large to compute with. -/
theorem exists_shortest_eq (x : Binary64) (tie : Tie) :
    ∃ five : Nat, 1 <<< 1074 * five = tenTo 1074 ∧ x.shortest tie =
      if x.units = 0 then ⟨0, 0⟩ else
      let found := (List.range 17).findSome? fun (n : Nat) => x.onGrid? tie (x.scale - (n + 1))
      let d := found.getD ⟨x.units * five, -1074⟩
      Decimal.dropZeros d.digits d.exponent := by
  obtain ⟨five, hpow, hfive⟩ := exists_pow_five 1074
  refine ⟨five, hfive, ?_⟩
  rw [shortest, ← hpow]

/-- The exact value with all its digits reads back. -/
theorem magnitudeOf_exact (hfinite : x.magnitude < infinite) {five : Nat}
    (hfive : 1 <<< 1074 * five = tenTo 1074) :
    magnitudeOf ⟨x.units * five, -1074⟩ = x.magnitude := by
  apply magnitudeOf_of_ratio hfinite
  have hratio : ∀ n : Nat, (Decimal.mk n (-1074)).ratio = (n * tenTo 0, tenTo 1074) := fun _ => rfl
  have hone : tenTo 0 = 1 := rfl
  rw [hratio, ← hfive, hone, Nat.mul_one, Nat.mul_assoc, Nat.mul_comm five]

private theorem magnitude_eq_zero_of_units (h : x.units = 0) : x.magnitude = 0 := by
  rw [units] at h
  rcases magnitude_cases x.magnitude with hlt | ⟨e, f, hf, hm⟩
  · rwa [unitsOf_of_lt hlt] at h
  · rw [hm, unitsOf_normal hf, Nat.shiftLeft_eq] at h
    have hpos : 0 < (0x10000000000000 + f) * 2 ^ e :=
      Nat.mul_pos (by omega) (Nat.two_pow_pos e)
    omega

/-- The decimal that is written reads back. -/
theorem magnitudeOf_shortest (hfinite : x.magnitude < infinite) (tie : Tie) :
    magnitudeOf (x.shortest tie) = x.magnitude := by
  obtain ⟨five, hfive, heq⟩ := x.exists_shortest_eq tie
  rw [heq]
  split
  · next hzero =>
    rw [magnitude_eq_zero_of_units hzero]
    rfl
  · simp only [magnitudeOf_dropZeros]
    cases hfound : (List.range 17).findSome? fun (n : Nat) => x.onGrid? tie (x.scale - (n + 1)) with
    | none => exact magnitudeOf_exact hfinite hfive
    | some d =>
      obtain ⟨n, -, hn⟩ := List.exists_of_findSome?_eq_some hfound
      exact (onGrid?_spec hn).1

/-! ## Whole numbers -/

private theorem length_toDigits_mul_tenTo {n : Nat} (hn : 0 < n) (k : Nat) :
    (Nat.toDigits 10 (n * tenTo k)).length = (Nat.toDigits 10 n).length + k := by
  induction k with
  | zero => rw [show n * tenTo 0 = n from Nat.mul_one n, Nat.add_zero]
  | succ k ih =>
    have happend := Nat.toDigits_append_toDigits (b := 10) (d := 0) (by decide)
      (Nat.mul_pos hn (tenTo_pos k)) (by decide)
    rw [tenTo_succ, ← Nat.mul_assoc, Nat.mul_comm _ 10, ← Nat.add_zero (10 * _), ← happend,
      List.length_append, ih]
    rfl

/-- A whole number has as many places before the point as it has digits. -/
theorem scale_of_whole {n : Nat} (hn : 0 < n) (h : x.units = n * 1 <<< 1074) :
    x.scale = (Nat.toDigits 10 n).length := by
  have hshift : ∀ p k, (n * 1 <<< p * k) >>> p = n * k := fun p k => by
    rw [Nat.shiftRight_eq_div_pow, Nat.one_shiftLeft, Nat.mul_right_comm,
      Nat.mul_div_cancel _ (Nat.two_pow_pos p)]
  rw [scale, h, hshift, length_toDigits_mul_tenTo hn]
  omega

/-- On the grid of the whole numbers a whole number is found at the latest. -/
theorem onGrid?_zero_ne_none {n : Nat} (hfinite : x.magnitude < infinite)
    (h : x.units = n * 1 <<< 1074) (tie : Tie) : x.onGrid? tie 0 ≠ none := by
  apply onGrid?_ne_none
  have hden : tenTo (0 : Int).toNat <<< 1074 = 1 <<< 1074 := rfl
  have hquotient : (x.overGrid 0).1 / (x.overGrid 0).2 = n := by
    rw [overGrid, hden, h]
    exact (congrArg (· / 1 <<< 1074) (Nat.mul_one _)).trans
      (Nat.mul_div_cancel _ (one_shiftLeft_pos 1074))
  have hratio : (Decimal.mk n 0).ratio = (n, 1) := congrArg (·, 1) (Nat.mul_one n)
  rw [hquotient]
  apply magnitudeOf_of_ratio hfinite
  rw [hratio, h, Nat.mul_one]

/-- What is found in a range is found there at no smaller number. -/
theorem exists_first_of_range {α : Type} {f : Nat → Option α} {n : Nat} {a : α}
    (h : (List.range n).findSome? f = some a) : ∃ k, f k = some a ∧ ∀ j < k, f j = none := by
  obtain ⟨before, k, after, hrange, hk, hbefore⟩ := List.findSome?_eq_some_iff.mp h
  refine ⟨k, hk, fun j hj => hbefore j ?_⟩
  rw [List.range_eq_range', List.range'_eq_append_iff] at hrange
  obtain ⟨i, -, rfl, hafter⟩ := hrange
  obtain ⟨rfl, -, -⟩ := List.range'_eq_cons_iff.mp hafter.symm
  rw [← List.range_eq_range', List.mem_range]
  omega

/-- The first grid on which something is found lies above the point, if the number is whole. -/
theorem exponent_shortest_nonneg (hfinite : x.magnitude < infinite) (h : 1 <<< 1074 ∣ x.units)
    (tie : Tie) : 0 ≤ (x.shortest tie).exponent := by
  obtain ⟨n, hn⟩ := h
  rw [Nat.mul_comm] at hn
  obtain ⟨five, hfive, heq⟩ := x.exists_shortest_eq tie
  rw [heq]
  split
  · exact Int.le_refl 0
  · next hzero =>
    have hpos : 0 < n := Nat.pos_of_ne_zero fun h0 => hzero (by rw [hn, h0, Nat.zero_mul])
    cases hfound : (List.range 17).findSome? fun (k : Nat) => x.onGrid? tie (x.scale - (k + 1)) with
    | none =>
      -- the exact value has all the zeros of the power of ten that it is written over
      have hle := Decimal.le_exponent_dropZeros (Nat.ne_of_gt hpos) 1074 (-1074)
      rw [← hfive, ← Nat.mul_assoc, ← hn] at hle
      exact Int.le_trans (by decide) hle
    | some d =>
      obtain ⟨k, hk, hbefore⟩ := exists_first_of_range hfound
      have hgrid : 0 ≤ d.exponent := by
        rw [(onGrid?_spec hk).2]
        by_contra hneg
        rw [scale_of_whole hpos hn] at hneg hbefore
        have hone : ((Nat.toDigits 10 n).length : Int) -
            (((Nat.toDigits 10 n).length - 1 : Nat) + 1) = 0 := by
          have := List.length_pos_iff.mpr (Nat.toDigits_ne_nil (b := 10) (n := n))
          omega
        have hnone := hbefore ((Nat.toDigits 10 n).length - 1) (by omega)
        rw [hone] at hnone
        exact onGrid?_zero_ne_none hfinite hn tie hnone
      exact Int.le_trans hgrid (Decimal.exponent_le_dropZeros ..)

/-- A number has a fraction just if its decimal has places behind the point. -/
theorem exponent_shortest_neg_iff (hfinite : x.magnitude < infinite) (tie : Tie) :
    (x.shortest tie).exponent < 0 ↔ x.hasFraction = true := by
  constructor
  · intro hneg
    by_contra hwhole
    have hdvd := hasFraction_eq_false_iff.mp (Bool.not_eq_true _ ▸ hwhole)
    exact Int.not_lt.mpr (exponent_shortest_nonneg hfinite hdvd tie) hneg
  · intro h
    by_contra hnonneg
    have hback := magnitudeOf_shortest hfinite tie
    have hden : (x.shortest tie).ratio.2 = 1 := by
      rw [Decimal.ratio, show (-(x.shortest tie).exponent).toNat = 0 by omega]
      rfl
    rw [magnitudeOf_eq, hden] at hback
    have hdvd := dvd_unitsOf_magnitudeNear (hback.symm ▸ hfinite)
    rw [hback] at hdvd
    rw [hasFraction_eq_false_iff.mpr hdvd] at h
    cases h

end Binary64

/-! ## Written decimals -/

namespace Decimal

variable {d : Decimal}

/-- A decimal with places is written as digits, a point, and as many digits as it has places. -/
theorem plain_of_neg (h : d.exponent < 0) : ∃ whole places : List Char,
    d.plain = whole ++ '.' :: places ∧ whole ≠ [] ∧ (∀ c ∈ whole ++ places, c.isDigit = true) ∧
      natOfDigits (whole ++ places) = d.digits ∧ -(places.length : Int) = d.exponent := by
  have hdigits : ∀ c ∈ Nat.toDigits 10 d.digits, c.isDigit = true :=
    fun _ => isDigit_of_mem_toDigits
  rw [plain, if_neg (Int.not_le.mpr h)]
  split
  · next hlt =>
    generalize hcut : (Nat.toDigits 10 d.digits).length - (-d.exponent).toNat = cut
    have hjoin := List.take_append_drop cut (Nat.toDigits 10 d.digits)
    refine ⟨_, _, rfl, ?_, by rwa [hjoin], by rw [hjoin, natOfDigits_toDigits], ?_⟩
    · apply List.ne_nil_of_length_pos
      rw [List.length_take]
      omega
    · rw [List.length_drop]
      omega
  · next hge =>
    refine ⟨['0'], List.replicate _ '0' ++ _, rfl, List.cons_ne_nil _ _, fun c hc => ?_, ?_, ?_⟩
    · exact isDigit_of_mem_zeros_append (k := 1) (fun _ => isDigit_of_mem_zeros_append hdigits) hc
    · exact (natOfDigits_zeros_append 1 _).trans
        ((natOfDigits_zeros_append _ _).trans (natOfDigits_toDigits _))
    · rw [List.length_append, List.length_replicate]
      omega

/-- A decimal without places is written in digits only. -/
theorem isDigit_of_mem_plain (h : 0 ≤ d.exponent) {c : Char} (hc : c ∈ d.plain) :
    c.isDigit = true := by
  rw [plain, if_pos h] at hc
  rcases List.mem_append.mp hc with hc | hc
  · exact isDigit_of_mem_toDigits hc
  · rw [List.eq_of_mem_replicate hc]
    rfl

/-- Digits, a point and digits are read as a decimal with as many places as digits follow. -/
theorem read?_point (negative : Bool) {whole places : List Char} (hne : whole ≠ [])
    (hdigits : ∀ c ∈ whole ++ places, c.isDigit = true) :
    read? (minus negative ++ (whole ++ '.' :: places)) =
      some (negative, ⟨natOfDigits (whole ++ places), -(places.length : Int)⟩) := by
  obtain ⟨hwhole, hplaces⟩ := List.forall_mem_append.mp hdigits
  have hhead : (whole ++ '.' :: places).head?.any Char.isDigit = true := by
    cases whole with
    | nil => exact absurd rfl hne
    | cons c cs => exact hwhole c List.mem_cons_self
  have htake : (whole ++ '.' :: places).takeWhile Char.isDigit = whole := by
    rw [List.takeWhile_append_of_pos hwhole]
    exact List.append_nil whole
  have hdrop : (whole ++ '.' :: places).dropWhile Char.isDigit = '.' :: places := by
    rw [List.dropWhile_append_of_pos hwhole]
    rfl
  have htake' : places.takeWhile Char.isDigit = places := List.takeWhile_eq_self_iff.mpr hplaces
  have hdrop' : places.dropWhile Char.isDigit = [] := List.dropWhile_eq_nil_iff.mpr hplaces
  have happend : whole ++ places ≠ [] := List.append_ne_nil_of_left_ne_nil hne places
  rw [read?, splitSign_minus_append negative hhead]
  simp only [htake, hdrop, htake', hdrop', happend, if_false, readExponent?, Option.map_some,
    Int.zero_sub]

/-- A decimal with places is read back from its written form. -/
theorem read?_plain (negative : Bool) (h : d.exponent < 0) :
    read? (minus negative ++ d.plain) = some (negative, d) := by
  obtain ⟨whole, places, hplain, hne, hdigits, hvalue, hplaces⟩ := plain_of_neg h
  rw [hplain, read?_point negative hne hdigits, hvalue, hplaces]

end Decimal

/-- A number with a fraction is read back from its shortest decimal. -/
theorem Binary64.read?_shortest {x : Binary64} (h : x.hasFraction = true) (tie : Tie) :
    Binary64.read? (minus x.isNegative ++ (x.shortest tie).plain) = some x := by
  have hfinite := magnitude_lt_of_hasFraction h
  have hround : ofMagnitude x.isNegative (magnitudeOf (x.shortest tie)) = x := by
    rw [magnitudeOf_shortest hfinite tie, ofMagnitude_magnitude]
  rw [Binary64.read?, Decimal.read?_plain _ ((exponent_shortest_neg_iff hfinite tie).mpr h)]
  exact congrArg some hround

end FlatTree
