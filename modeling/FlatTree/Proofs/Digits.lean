import FlatTree.Instant.Text
import FlatTree.Uuid
import Mathlib.Algebra.Group.Nat.Defs

/-!
# Numbers read from their digits

The digits of a number spell it, with any zeros in front, and in base 16 as well as in base 10. What
is written in a fixed number of digits can be cut off from what follows, and a number that is
written as it is has no zero in front, so it is not taken for something else.
-/

namespace FlatTree

/-! ## Decimal digits -/

@[simp] theorem natOfDigits_toDigits (n : Nat) : natOfDigits (Nat.toDigits 10 n) = n :=
  Nat.ofDigitChars_toDigits (by decide) (by decide)

theorem natOfDigits_append (cs ds : List Char) :
    natOfDigits (cs ++ ds) = Nat.ofDigitChars 10 ds (natOfDigits cs) :=
  Nat.ofDigitChars_append 0

@[simp] theorem natOfDigits_zeros_append (k : Nat) (ds : List Char) :
    natOfDigits (List.replicate k '0' ++ ds) = natOfDigits ds := by
  have hzeros : natOfDigits (List.replicate k '0') = 0 :=
    Nat.ofDigitChars_replicate_zero.trans (Nat.mul_zero _)
  rw [natOfDigits_append, hzeros]
  rfl

theorem isDigit_of_mem_toDigits {n : Nat} {c : Char} (h : c ∈ Nat.toDigits 10 n) :
    c.isDigit = true :=
  Nat.isDigit_of_mem_toDigits (by decide) (by decide) h

theorem isDigit_of_mem_zeros_append {k : Nat} {ds : List Char} {c : Char}
    (hds : ∀ c ∈ ds, c.isDigit = true) (h : c ∈ List.replicate k '0' ++ ds) :
    c.isDigit = true := by
  rcases List.mem_append.mp h with h | h
  · rw [List.eq_of_mem_replicate h]
    rfl
  · exact hds c h

/-- Only zero is written with a zero in front. -/
theorem head?_toDigits_ne_zero {n : Nat} (h : n ≠ 0) : (Nat.toDigits 10 n).head? ≠ some '0' := by
  induction n using Nat.strongRecOn with
  | ind n ih =>
    rw [Nat.toDigits_eq_if (by decide)]
    split
    · next hlt =>
      have hdigit : ∀ d < 10, d ≠ 0 → d.digitChar ≠ '0' := by decide
      exact fun heq => hdigit n hlt h (Option.some.inj heq)
    · next hge =>
      have hrest := ih (n / 10) (by omega) (by omega)
      cases hds : Nat.toDigits 10 (n / 10) with
      | nil => exact absurd hds Nat.toDigits_ne_nil
      | cons c ds =>
        rw [hds] at hrest
        exact hrest

/-! ## Padded numbers -/

@[simp] theorem natOfDigits_padded (width n : Nat) : natOfDigits (padded width n) = n := by
  rw [padded, natOfDigits_zeros_append, natOfDigits_toDigits]

theorem isDigit_of_mem_padded {width n : Nat} {c : Char} (h : c ∈ padded width n) :
    c.isDigit = true :=
  isDigit_of_mem_zeros_append (fun _ => isDigit_of_mem_toDigits) h

theorem length_padded {width n : Nat} (hw : 0 < width) (h : n < 10 ^ width) :
    (padded width n).length = width := by
  have hle := (Nat.length_toDigits_le_iff (by decide) hw).mpr h
  rw [padded, List.length_append, List.length_replicate]
  omega

/-- A number of fixed width is cut off from what follows. -/
theorem takeDigits?_padded {width n : Nat} (hw : 0 < width) (h : n < 10 ^ width)
    (rest : List Char) : takeDigits? width (padded width n ++ rest) = some (n, rest) := by
  have hlen := length_padded hw h
  have htake : (padded width n ++ rest).take width = padded width n := List.take_left' hlen
  have hdrop : (padded width n ++ rest).drop width = rest := List.drop_left' hlen
  have hall : (padded width n).all Char.isDigit = true :=
    List.all_eq_true.mpr fun _ => isDigit_of_mem_padded
  simp only [takeDigits?, htake, hdrop, hlen, hall, and_self, if_true, natOfDigits_padded]

/-! ## Whole numbers with a sign -/

/-- A minus for a negative number. -/
def minus (negative : Bool) : List Char :=
  if negative then ['-'] else []

/-- A whole number is written as its digits, behind a minus if it is negative. -/
theorem toList_toString_int (i : Int) :
    (toString i).toList = minus (decide (i < 0)) ++ Nat.toDigits 10 i.natAbs := by
  rw [Int.toString_eq_repr]
  cases i with
  | ofNat n =>
    have hneg : ¬(Int.ofNat n < 0) := Int.not_lt.mpr (Int.natCast_nonneg n)
    rw [minus, decide_eq_false hneg]
    exact Nat.toList_repr
  | negSucc n =>
    rw [minus, decide_eq_true (Int.negSucc_lt_zero n)]
    simp only [Int.repr, String.toList_append, Nat.toList_repr]
    rfl

theorem splitSign_of_isDigit {cs : List Char} (h : cs.head?.any Char.isDigit = true) :
    Decimal.splitSign cs = (false, cs) := by
  cases cs with
  | nil => cases h
  | cons c cs =>
    have hc : c.isDigit = true := h
    have hminus : c ≠ '-' := fun heq => absurd (heq ▸ hc) (show ¬ '-'.isDigit = true by decide)
    have hplus : c ≠ '+' := fun heq => absurd (heq ▸ hc) (show ¬ '+'.isDigit = true by decide)
    rw [Decimal.splitSign.eq_def]
    split
    · next heq => exact absurd (List.cons.inj heq).1 hminus
    · next heq => exact absurd (List.cons.inj heq).1 hplus
    · rfl

/-- What begins with a digit, behind an optional minus, is taken apart. -/
theorem splitSign_minus_append (negative : Bool) {cs : List Char}
    (h : cs.head?.any Char.isDigit = true) :
    Decimal.splitSign (minus negative ++ cs) = (negative, cs) := by
  cases negative with
  | true => rfl
  | false => exact splitSign_of_isDigit h

theorem head?_any_isDigit {cs : List Char} (hne : cs ≠ [])
    (h : ∀ c ∈ cs, c.isDigit = true) : cs.head?.any Char.isDigit = true := by
  cases cs with
  | nil => exact absurd rfl hne
  | cons c cs => exact h c List.mem_cons_self

/-- A whole number is read back from its text. -/
theorem readInt?_toString (i : Int) : Decimal.readInt? (toString i).toList = some i := by
  have hdigits : ∀ c ∈ Nat.toDigits 10 i.natAbs, c.isDigit = true :=
    fun _ => isDigit_of_mem_toDigits
  rw [toList_toString_int, Decimal.readInt?,
    splitSign_minus_append _ (head?_any_isDigit Nat.toDigits_ne_nil hdigits)]
  dsimp only
  rw [if_pos ⟨Nat.toDigits_ne_nil, List.all_eq_true.mpr hdigits⟩, natOfDigits_toDigits]
  congr 1
  by_cases hneg : i < 0
  · rw [decide_eq_true hneg, if_pos rfl]
    omega
  · rw [decide_eq_false hneg, if_neg Bool.false_ne_true]
    omega

/-! ## Hexadecimal digits -/

theorem hexValue?_digitChar {d : Nat} (h : d < 16) : hexValue? d.digitChar = some d := by
  revert d
  decide

theorem natOfHex?_toDigits (n : Nat) : natOfHex? (Nat.toDigits 16 n) = some n := by
  induction n using Nat.strongRecOn with
  | ind n ih =>
    rw [Nat.toDigits_eq_if (by decide), natOfHex?]
    split
    · next hlt =>
      simp only [List.foldlM_cons, List.foldlM_nil, hexValue?_digitChar hlt, Option.map_some,
        Nat.mul_zero, Nat.zero_add]
      rfl
    · next hge =>
      have hrest : List.foldlM (fun n c => (hexValue? c).map (16 * n + ·)) 0
          (Nat.toDigits 16 (n / 16)) = some (n / 16) := ih (n / 16) (by omega)
      have hdigit := hexValue?_digitChar (Nat.mod_lt n (show 16 > 0 by decide))
      rw [List.foldlM_append, hrest]
      simp only [List.foldlM_cons, List.foldlM_nil, hdigit, Option.map_some]
      exact congrArg some (Nat.div_add_mod n 16)

theorem natOfHex?_zeros_append (k : Nat) (ds : List Char) :
    natOfHex? (List.replicate k '0' ++ ds) = natOfHex? ds := by
  induction k with
  | zero => rfl
  | succ k ih => exact ih

end FlatTree
