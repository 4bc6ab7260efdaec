import FlatTree.Proofs.Digits
import Mathlib.Data.List.TakeWhile

/-!
# Instants and identifiers read from their texts

An instant reads back from its written form if its year has four digits, and an identifier always
does. Every part of both stands in a fixed number of digits, except the fraction of a second, whose
end is where the digits end.
-/

namespace FlatTree

/-! ## Instants -/

private theorem skipChar?_of_pos {p : Char → Bool} {c : Char} (h : p c = true) (cs : List Char) :
    skipChar? p (c :: cs) = some cs :=
  if_pos h

theorem takeDigits?_two {n : Nat} (h : n < 100) (rest : List Char) :
    takeDigits? 2 (padded 2 n ++ rest) = some (n, rest) :=
  takeDigits?_padded (by decide) h rest

namespace Instant

/-- A fraction ends where the digits end. -/
theorem readFraction?_padded {width n : Nat} (hpos : 0 < width) (hwidth : width ≤ 9)
    (hn : n < 10 ^ width) {rest : List Char} (hrest : rest.head?.any Char.isDigit = false) :
    readFraction? ('.' :: padded width n ++ rest) = some (n * tenTo (9 - width), rest) := by
  have hlen := length_padded hpos hn
  have hdigits : ∀ c ∈ padded width n, c.isDigit = true := fun _ => isDigit_of_mem_padded
  have hnone : rest.takeWhile Char.isDigit = [] ∧ rest.dropWhile Char.isDigit = rest := by
    cases rest with
    | nil => exact ⟨rfl, rfl⟩
    | cons c cs =>
      have hc : ¬c.isDigit = true := Bool.eq_false_iff.mp hrest
      exact ⟨List.takeWhile_cons_of_neg hc, List.dropWhile_cons_of_neg hc⟩
  have htake : (padded width n ++ rest).takeWhile Char.isDigit = padded width n := by
    rw [List.takeWhile_append_of_pos hdigits, hnone.1, List.append_nil]
  have hdrop : (padded width n ++ rest).dropWhile Char.isDigit = rest := by
    rw [List.dropWhile_append_of_pos hdigits, hnone.2]
  have hne : padded width n ≠ [] := List.ne_nil_of_length_pos (by omega)
  have hkept : (padded width n).take 9 = padded width n := List.take_of_length_le (by omega)
  rw [List.cons_append, readFraction?]
  simp only [htake, hdrop, hne, if_false, hkept, natOfDigits_padded, hlen]

theorem readFraction?_fraction {nano : Nat} (hnano : nano < 1000000000) {rest : List Char}
    (hpoint : rest.head? ≠ some '.') (hrest : rest.head?.any Char.isDigit = false) :
    readFraction? (fraction nano ++ rest) = some (nano, rest) := by
  rw [fraction]
  split
  · next hzero =>
    subst hzero
    rw [List.nil_append, readFraction?.eq_def]
    split
    · exact absurd rfl hpoint
    · rfl
  · split
    · next hmilli =>
      have hvalue : nano / 1000000 * tenTo (9 - 3) = nano :=
        Nat.div_mul_cancel (Nat.dvd_of_mod_eq_zero hmilli)
      rw [readFraction?_padded (by decide) (by decide) (by omega) hrest, hvalue]
    · split
      · next hmicro =>
        have hvalue : nano / 1000 * tenTo (9 - 6) = nano :=
          Nat.div_mul_cancel (Nat.dvd_of_mod_eq_zero hmicro)
        rw [readFraction?_padded (by decide) (by decide) (by omega) hrest, hvalue]
      · have hvalue : nano * tenTo (9 - 9) = nano := Nat.mul_one nano
        rw [readFraction?_padded (by decide) (by decide) hnano hrest, hvalue]

/-- Hours and minutes behind a sign. -/
theorem readOffset?_of_sign {sign : Char} (hsign : sign = '+' ∨ sign = '-') {hours minutes : Nat}
    (hhours : hours < 24) (hminutes : minutes < 60) :
    readOffset? (sign :: padded 2 hours ++ ':' :: padded 2 minutes) =
      some (if sign = '+' then ((60 * hours + minutes : Nat) : Int)
        else -(60 * hours + minutes : Nat)) := by
  have htake := takeDigits?_two (n := hours) (by omega) (':' :: padded 2 minutes)
  have htake' := takeDigits?_two (n := minutes) (by omega) []
  have hcolon : skipChar? (· == ':') (':' :: padded 2 minutes) = some (padded 2 minutes) := rfl
  have hin : ¬(([] : List Char) ≠ [] ∨ 24 ≤ hours ∨ 60 ≤ minutes) := by
    simp only [ne_eq, not_true, false_or]
    omega
  rw [List.append_nil] at htake'
  rcases hsign with rfl | rfl
  · rw [List.cons_append, readOffset?]
    · simp only [htake, hcolon, htake', Option.bind_eq_bind, Option.bind_some, if_neg hin, if_true]
    · exact fun h => absurd h (by decide)
    · exact fun h => absurd h (by decide)
  · rw [List.cons_append, readOffset?]
    · simp only [htake, hcolon, htake', Option.bind_eq_bind, Option.bind_some, if_neg hin, true_or,
        if_true, show ¬ '-' = '+' by decide, if_false]
    · exact fun h => absurd h (by decide)
    · exact fun h => absurd h (by decide)

theorem readOffset?_offsetText {offset : Int} (h : offset.natAbs < 1440) :
    readOffset? (offsetText offset) = some offset := by
  have hhours : offset.natAbs / 60 < 24 := by omega
  have hminutes : offset.natAbs % 60 < 60 := by omega
  rw [offsetText]
  split
  · rw [readOffset?_of_sign (.inr rfl) hhours hminutes, if_neg (by decide)]
    congr 1
    omega
  · rw [readOffset?_of_sign (.inl rfl) hhours hminutes, if_pos rfl]
    congr 1
    omega

/-- What follows a fraction is neither a point nor a digit. -/
theorem head?_offsetText (offset : Int) :
    (offsetText offset).head? ≠ some '.' ∧ (offsetText offset).head?.any Char.isDigit = false := by
  rw [offsetText]
  split <;> exact ⟨fun h => absurd (Option.some.inj h) (by decide), rfl⟩

/-- There are twelve months, of at most 31 days. -/
theorem month_le_of_le_daysInMonth {year : Int} {month day : Nat} (hday : 1 ≤ day)
    (h : day ≤ daysInMonth year month) : month ≤ 12 ∧ day ≤ 31 := by
  rw [daysInMonth.eq_def] at h
  split at h
  · split at h <;> omega
  all_goals omega

/-- An instant is read back from its text if four digits are enough for its year. -/
theorem read?_text {t : Instant} (hlow : 0 ≤ t.reading.year) (hhigh : t.reading.year < 10000) :
    read? t.text = some t := by
  obtain ⟨⟨year, month, day, hour, minute, second, nano, offset⟩, hvalid⟩ := t
  dsimp only at hlow hhigh
  obtain ⟨-, -, hday, hdays, hhour, hminute, hsecond, hnano, hoffset, -⟩ := id hvalid
  obtain ⟨hmonth, hday'⟩ := month_le_of_le_daysInMonth hday hdays
  dsimp only at hmonth hday' hhour hminute hsecond hnano hoffset
  obtain ⟨hpoint, hdigit⟩ := head?_offsetText offset
  have hyear : (year.toNat : Int) = year := Int.toNat_of_nonneg hlow
  have hclock : readClock? (text ⟨⟨year, month, day, hour, minute, second, nano, offset⟩, hvalid⟩) =
      some ⟨year, month, day, hour, minute, second, nano, offset⟩ := by
    have hfour : ∀ rest, takeDigits? 4 (padded 4 year.toNat ++ rest) = some (year.toNat, rest) :=
      takeDigits?_padded (by decide) (by omega)
    rw [text, clockText, yearText, if_pos ⟨hlow, hhigh⟩, readClock?]
    simp only [List.append_assoc, List.cons_append]
    simp only [hfour, takeDigits?_two (n := month) (by omega),
      takeDigits?_two (n := day) (by omega), takeDigits?_two (n := hour) (by omega),
      takeDigits?_two (n := minute) (by omega), takeDigits?_two (n := second) (by omega),
      skipChar?_of_pos, beq_self_eq_true, Bool.true_or, readFraction?_fraction hnano hpoint hdigit,
      readOffset?_offsetText hoffset, hyear, Option.bind_eq_bind, Option.bind_some]
    rfl
  rw [read?, hclock]
  exact dif_pos hvalid

end Instant

/-! ## Identifiers -/

/-- Where digits spell a number, all of them are digits. -/
theorem hexValue?_ne_none_of_mem {cs : List Char} {n : Nat} (h : natOfHex? cs = some n) {c : Char}
    (hc : c ∈ cs) : hexValue? c ≠ none := by
  have hgeneral : ∀ start, cs.foldlM (fun n c => (hexValue? c).map (16 * n + ·)) start = some n →
      hexValue? c ≠ none := by
    clear h
    induction cs with
    | nil => cases hc
    | cons d cs ih =>
      intro start h
      rw [List.foldlM_cons] at h
      cases hd : hexValue? d with
      | none =>
        rw [hd] at h
        cases h
      | some k =>
        rw [hd] at h
        rcases List.mem_cons.mp hc with rfl | hc
        · exact hd ▸ Option.some_ne_none k
        · exact ih hc _ h
  exact hgeneral 0 h

namespace Uuid

variable (u : Uuid)

theorem length_digits : u.digits.length = 32 := by
  have hle := (Nat.length_toDigits_le_iff (b := 16) (k := 32) (by decide) (by decide)).mpr
    u.value.isLt
  simp only [digits, List.length_append, List.length_replicate]
  omega

theorem natOfHex?_digits : natOfHex? u.digits = some u.value.val := by
  rw [digits, natOfHex?_zeros_append, natOfHex?_toDigits]

theorem ofDigits?_digits : ofDigits? u.digits = some u := by
  rw [ofDigits?, if_pos u.length_digits, natOfHex?_digits, Option.bind_some]
  exact dif_pos u.value.isLt

/-- Among the digits there is no hyphen, and no letter that is no digit. -/
theorem ne_of_mem_digits {c : Char} (h : c ∈ u.digits) : c ≠ '-' ∧ c ≠ 'u' := by
  have hvalue := hexValue?_ne_none_of_mem u.natOfHex?_digits h
  constructor <;> rintro rfl <;> exact hvalue rfl

theorem intercalate_groups (ds : List Char) :
    ['-'].intercalate (groups ds) = ds.take 8 ++ '-' :: ((ds.drop 8).take 4 ++ '-' ::
      ((ds.drop 12).take 4 ++ '-' :: ((ds.drop 16).take 4 ++ '-' :: ds.drop 20))) := by
  simp [groups, List.intercalate]

/-- The groups together are all digits. -/
theorem groups_append (ds : List Char) :
    ds.take 8 ++ ((ds.drop 8).take 4 ++ ((ds.drop 12).take 4 ++
      ((ds.drop 16).take 4 ++ ds.drop 20))) = ds := by
  have hnext : ∀ i, (ds.drop i).take 4 ++ ds.drop (i + 4) = ds.drop i := fun i => by
    rw [← List.drop_drop, List.take_append_drop]
  rw [hnext 16, hnext 12, hnext 8, List.take_append_drop]

/-- The hyphens of the text are where the digits are grouped. -/
theorem dropHyphens?_text : dropHyphens? u.text = some u.digits := by
  have hkeep : ∀ ds : List Char, ds ⊆ u.digits → ds.filter (· ≠ '-') = ds := by
    intro ds hds
    rw [List.filter_eq_self]
    intro c hc
    exact decide_eq_true (u.ne_of_mem_digits (hds hc)).1
  have htake : ∀ i j, (u.digits.drop i).take j ⊆ u.digits := fun i j =>
    List.Subset.trans (List.take_subset ..) (List.drop_subset ..)
  have hfilter : u.text.filter (· ≠ '-') = u.digits := by
    have hhyphen : ¬decide ('-' ≠ '-') = true := by decide
    rw [text, intercalate_groups]
    simp only [List.filter_append, List.filter_cons, hhyphen, hkeep _ (htake 8 4),
      hkeep _ (htake 12 4), hkeep _ (htake 16 4), hkeep _ (List.drop_subset 20 u.digits),
      hkeep _ (List.take_subset 8 u.digits)]
    exact groups_append u.digits
  have htext : ['-'].intercalate (groups u.digits) = u.text := rfl
  simp only [dropHyphens?, hfilter, htext, if_true]

/-- An identifier is read back from its text. -/
theorem read?_text : read? u.text = some u := by
  have hlen : u.text.length ≠ 32 := by
    have hjoin := congrArg List.length (groups_append u.digits)
    rw [text, intercalate_groups]
    simp only [List.length_append, List.length_cons, u.length_digits] at hjoin ⊢
    omega
  have hurn : "urn:uuid:".toList.isPrefixOf u.text = false := by
    have hdigits := u.length_digits
    have hletter := fun c => u.ne_of_mem_digits (c := c)
    rw [text, intercalate_groups]
    generalize u.digits = ds at hdigits hletter
    cases ds with
    | nil => cases hdigits
    | cons c ds =>
      have hc : ('u' == c) = false := beq_false_of_ne (hletter c List.mem_cons_self).2.symm
      exact congrArg (· && _) hc
  simp only [read?, hlen, if_false, hurn, dropHyphens?_text, Option.bind_some, ofDigits?_digits]
  rfl

end Uuid

end FlatTree
