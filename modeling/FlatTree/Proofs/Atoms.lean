import FlatTree.Proofs.KeywordMaps
import FlatTree.Proofs.Literals
import FlatTree.Proofs.Rereading
import FlatTree.Proofs.Shortest

/-!
# Leaves that read back

Truth values, whole numbers, texts, instants, identifiers and references read back as what they are.
A keyword does so if its name can be read at all. A float does so just if it has a fraction: without
one it is written without a point, and what has no point and no exponent is never read as a float.
-/

namespace FlatTree.Edn

/-! ## Names -/

private theorem exists_dropWhile_slash {cs : List Char} (h : '/' ∈ cs) :
    ∃ base, cs.dropWhile (· ≠ '/') = '/' :: base := by
  have hhead := List.head?_dropWhile_not (fun c : Char => decide (c ≠ '/')) cs
  cases hdrop : cs.dropWhile (· ≠ '/') with
  | nil =>
    have hall := List.dropWhile_eq_nil_iff.mp hdrop '/' h
    exact absurd rfl (of_decide_eq_true hall)
  | cons c base =>
    rw [hdrop] at hhead
    obtain rfl : c = '/' := by simpa using hhead
    exact ⟨base, rfl⟩

/-- A name that was read is the one its text folds into. -/
theorem eq_ofQualified_of_readName {cs : List Char} {n : Name} (h : readName cs = .ok n) :
    n = Name.ofQualified (String.ofList cs) := by
  simp only [readName] at h
  split at h
  · cases h
  split at h
  · next hslash =>
    cases h
    rw [hslash]
    rfl
  split at h
  · cases h
  · next hfirst =>
    split at h
    · cases h
    · next hlast =>
      split at h
      · cases h
      split at h
      · next hnone =>
        cases h
        have hnone' : '/' ∉ (String.ofList cs).toList := by rwa [String.toList_ofList]
        exact (Name.ofQualified_of_notMem hnone').symm
      · next hslash =>
        split at h
        · cases h
        split at h
        · cases h
        cases h
        obtain ⟨base, hdrop⟩ := exists_dropWhile_slash (not_not.mp hslash)
        have hsplit := List.takeWhile_append_dropWhile (p := (· ≠ '/')) (l := cs)
        rw [hdrop] at hsplit
        have hspace : cs.takeWhile (· ≠ '/') ≠ [] := fun hnil => by
          rw [hnil] at hsplit
          exact hfirst (hsplit ▸ rfl)
        have hbase : base ≠ [] := fun hnil => by
          rw [hnil] at hsplit
          exact hlast (hsplit ▸ List.getLast?_concat ..)
        simp only [Name.ofQualified, String.toList_ofList, hdrop, hspace, hbase, or_self, if_false]
        rfl

/-- A text without slash and colon is a name outside any namespace. -/
theorem readName_of_notMem {cs : List Char} (hne : cs ≠ []) (hslash : '/' ∉ cs)
    (hcolon : ':' ∉ cs) : readName cs = .ok (Name.plain (String.ofList cs)) := by
  have hone : cs ≠ ['/'] := fun h => hslash (h ▸ List.mem_singleton_self _)
  have hfirst : cs.head? ≠ some '/' := fun h => hslash (List.mem_of_head? h)
  have hlast : cs.getLast? ≠ some '/' := fun h => hslash (List.mem_of_getLast? h)
  rw [readName, if_neg hne, if_neg hone, if_neg hfirst, if_neg hlast, if_neg hcolon, if_pos hslash]

/-! ## Numbers -/

theorem numeric_of_isDigit {c : Char} (h : c.isDigit = true) : CharSet.numeric.has c = true := by
  obtain ⟨hlow, hhigh⟩ := (Bool.and_eq_true _ _).mp h
  have hlow' : ¬c.toNat < 48 := Nat.not_lt.mpr (of_decide_eq_true hlow)
  have hhigh' : c.toNat ≤ 57 := of_decide_eq_true hhigh
  exact (if_neg hlow').trans (if_pos hhigh')

/-- A text that begins like a number, and is no qualified name, is read as a number. -/
theorem readAtom_of_looksNumeric {cs : List Char} (h : looksNumeric cs = true) (hslash : '/' ∉ cs)
    (hcolon : ':' ∉ cs) : readAtom cs = readNumber cs := by
  have hconstant : ∀ word ∈ [[], "nil".toList, "true".toList, "false".toList], cs ≠ word := by
    have hwords : ∀ word ∈ [[], "nil".toList, "true".toList, "false".toList],
        looksNumeric word = false := by decide
    exact fun word hword heq => Bool.false_ne_true ((hwords word hword).symm.trans (heq ▸ h))
  simp only [List.forall_mem_cons] at hconstant
  obtain ⟨hne, hnil, htrue, hfalse, -⟩ := hconstant
  have hname := readName_of_notMem hne hslash hcolon
  rw [readAtom.eq_def, if_neg hnil, if_neg htrue, if_neg hfalse]
  split
  · exact absurd List.mem_cons_self hcolon
  · rw [hname]
    exact if_pos ⟨rfl, h⟩

private theorem looksNumeric_minus (negative : Bool) {ds : List Char}
    (h : ds.head?.any Char.isDigit = true) : looksNumeric (minus negative ++ ds) = true := by
  cases ds with
  | nil => cases h
  | cons c cs =>
    have hc := numeric_of_isDigit (c := c) h
    cases negative with
    | true => exact hc
    | false =>
      show looksNumeric (c :: cs) = true
      rw [looksNumeric.eq_def]
      split
      · next heq =>
        cases heq
        cases h
      · next heq =>
        cases heq
        cases h
      · next heq =>
        cases heq
        exact hc
      · next heq => cases heq

/-- A character of a number that is written in digits, perhaps behind a minus. -/
theorem mem_minus_append {negative : Bool} {ds : List Char} {c : Char}
    (h : c ∈ minus negative ++ ds) : c = '-' ∨ c ∈ ds := by
  cases negative with
  | true => exact List.mem_cons.mp h
  | false => exact .inr h

theorem ne_of_isDigit {c d : Char} (h : c.isDigit = true) (hd : d.isDigit = false) : c ≠ d :=
  fun heq => Bool.false_ne_true (hd.symm.trans (heq ▸ h))

theorem isAtomChar_of_isDigit {c : Char} (h : c.isDigit = true) : isAtomChar c = true := by
  rw [isAtomChar, numeric_of_isDigit h, Bool.or_true]

section

variable {negative : Bool} {ds : List Char}

theorem notMem_minus_digits (h : ∀ c ∈ ds, c.isDigit = true) {d : Char} (hminus : d ≠ '-')
    (hdigit : d.isDigit = false) : d ∉ minus negative ++ ds := by
  intro hmem
  rcases mem_minus_append hmem with heq | hmem
  · exact hminus heq
  · exact ne_of_isDigit (h d hmem) hdigit rfl

private theorem readAtom_minus_digits (hne : ds ≠ []) (h : ∀ c ∈ ds, c.isDigit = true) :
    readAtom (minus negative ++ ds) = readNumber (minus negative ++ ds) :=
  readAtom_of_looksNumeric (looksNumeric_minus negative (head?_any_isDigit hne h))
    (notMem_minus_digits h (by decide) rfl) (notMem_minus_digits h (by decide) rfl)

/-- Digits without a zero in front are read as a whole number of 64 bits. -/
theorem readNumber_minus_digits (hne : ds ≠ []) (h : ∀ c ∈ ds, c.isDigit = true)
    (hzero : ds.head? = some '0' → ds = ['0']) {n : Int}
    (hread : Decimal.readInt? (minus negative ++ ds) = some n) (hn : inInt64Range n = true) :
    readNumber (minus negative ++ ds) = .ok (.integer (Int64.ofInt n)) := by
  have hnot : ∀ {d : Char}, d ≠ '-' → d.isDigit = false → d ∉ minus negative ++ ds :=
    notMem_minus_digits h
  have hlast : ∀ {d : Char}, d ≠ '-' → d.isDigit = false →
      ¬((minus negative ++ ds).getLast? = some d ∧ (minus negative ++ ds).count d = 1) :=
    fun hminus hdigit hd => hnot hminus hdigit (List.mem_of_getLast? hd.1)
  have hmark : ¬(minus negative ++ ds).any (fun c => c == '.' || c == 'e' || c == 'E') = true := by
    rw [List.any_eq_true]
    rintro ⟨c, hc, hmark⟩
    simp only [Bool.or_eq_true, beq_iff_eq] at hmark
    rcases hmark with (rfl | rfl) | rfl <;> exact hnot (by decide) rfl hc
  have hfirst : ¬(ds.head? = some '0' ∧ ds ≠ ['0']) := fun hd => hd.2 (hzero hd.1)
  simp only [readNumber, splitSign_minus_append negative (head?_any_isDigit hne h)]
  rw [if_neg (hlast (by decide) rfl), if_neg hmark, if_neg hfirst, if_neg (hlast (by decide) rfl),
    hread]
  exact if_pos hn

end

theorem inInt64Range_toInt (i : Int64) : inInt64Range i.toInt = true := by
  have hlow : -0x8000000000000000 ≤ i.toInt := i.le_toInt
  have hhigh : i.toInt < 0x8000000000000000 := i.toInt_lt
  rw [inInt64Range, decide_eq_true hlow, decide_eq_true hhigh]
  rfl

theorem readAtom_int64 (i : Int64) : readAtom (toString i.toInt).toList = .ok (.integer i) := by
  have hdigits : ∀ c ∈ Nat.toDigits 10 i.toInt.natAbs, c.isDigit = true :=
    fun _ => isDigit_of_mem_toDigits
  have hzero : (Nat.toDigits 10 i.toInt.natAbs).head? = some '0' →
      Nat.toDigits 10 i.toInt.natAbs = ['0'] := by
    intro hhead
    by_cases h0 : i.toInt.natAbs = 0
    · rw [h0]
      rfl
    · exact absurd hhead (head?_toDigits_ne_zero h0)
  have hread := readInt?_toString i.toInt
  rw [toList_toString_int] at hread ⊢
  rw [readAtom_minus_digits Nat.toDigits_ne_nil hdigits,
    readNumber_minus_digits Nat.toDigits_ne_nil hdigits hzero hread (inInt64Range_toInt i),
    Int64.ofInt_toInt]

/-! ## Floats -/

/-- The signs that make a number a float. -/
def isMark (c : Char) : Bool :=
  c == '.' || c == 'e' || c == 'E'

private theorem any_isMark_of_readNumber {cs : List Char} {x : Binary64}
    (h : readNumber cs = .ok (.float x)) : cs.any isMark = true := by
  simp only [readNumber] at h
  split at h
  · split at h <;> cases h
  split at h
  · next hmark => exact hmark
  split at h
  · cases h
  split at h
  · split at h <;> cases h
  · split at h
    · split at h <;> cases h
    · cases h

/-- A float is read only from a text with a point or an exponent. -/
theorem any_isMark_of_readAtom {cs : List Char} {x : Binary64}
    (h : readAtom cs = .ok (.float x)) : cs.any isMark = true := by
  rw [readAtom.eq_def] at h
  split at h
  · cases h
  split at h
  · cases h
  split at h
  · cases h
  split at h
  · split at h <;> cases h
  · split at h
    · split at h
      · exact any_isMark_of_readNumber h
      · cases h
    · cases h

private theorem isMark_of_isDigit {c : Char} (h : c.isDigit = true) : isMark c = false := by
  rw [isMark, beq_false_of_ne (ne_of_isDigit h rfl), beq_false_of_ne (ne_of_isDigit h rfl),
    beq_false_of_ne (ne_of_isDigit h rfl)]
  rfl

variable {x : Binary64}

theorem floatChars_of_finite (h : x.magnitude < Binary64.infinite) :
    floatChars x = minus x.isNegative ++ (x.shortest .up).plain := by
  have hnan : x.isNaN = false := decide_eq_false (Nat.lt_asymm h)
  have hinf : x.isInfinite = false := beq_false_of_ne (Nat.ne_of_lt h)
  rw [floatChars, hnan, hinf]
  rfl

/-- Without a fraction, neither a point nor an exponent is written. -/
theorem any_isMark_floatChars (h : x.hasFraction = false) : (floatChars x).any isMark = false := by
  have hsign : (minus x.isNegative).any isMark = false := by
    cases x.isNegative <;> rfl
  by_cases hfinite : x.magnitude < Binary64.infinite
  · have hplain : (x.shortest .up).plain.any isMark = false := by
      rw [List.any_eq_false]
      intro c hc
      have hexponent : 0 ≤ (x.shortest .up).exponent := by
        by_contra hneg
        have hfraction :=
          (Binary64.exponent_shortest_neg_iff hfinite .up).mp (Int.not_le.mp hneg)
        exact Bool.false_ne_true (h.symm.trans hfraction)
      rw [isMark_of_isDigit (Decimal.isDigit_of_mem_plain hexponent hc)]
      exact Bool.false_ne_true
    rw [floatChars_of_finite hfinite, List.any_append, hsign, hplain]
    rfl
  · rw [floatChars]
    split
    · rfl
    · next hnan =>
      have hinf : x.isInfinite = true := by
        rw [Binary64.isNaN, decide_eq_true_eq] at hnan
        exact beq_iff_eq.mpr (Nat.le_antisymm (Nat.not_lt.mp hnan) (Nat.not_lt.mp hfinite))
      rw [hinf, List.any_append]
      exact congrArg (· || _) hsign

/-- A number with a fraction is read back from its text. -/
theorem readAtom_floatChars (h : x.hasFraction = true) :
    readAtom (floatChars x) = .ok (.float x) := by
  have hfinite := Binary64.magnitude_lt_of_hasFraction h
  have hexponent := (Binary64.exponent_shortest_neg_iff hfinite .up).mpr h
  have hread := Binary64.read?_shortest h .up
  obtain ⟨whole, places, hplain, hne, hdigits, -, -⟩ := Decimal.plain_of_neg hexponent
  rw [hplain] at hread
  rw [floatChars_of_finite hfinite, hplain]
  obtain ⟨hwhole, hplaces⟩ := List.forall_mem_append.mp hdigits
  have hnot : ∀ {d : Char}, d ≠ '-' → d ≠ '.' → d.isDigit = false →
      d ∉ minus x.isNegative ++ (whole ++ '.' :: places) := by
    intro d hminus hpoint hdigit hmem
    rcases mem_minus_append hmem with heq | hmem
    · exact hminus heq
    rcases List.mem_append.mp hmem with hmem | hmem
    · exact ne_of_isDigit (hwhole d hmem) hdigit rfl
    rcases List.mem_cons.mp hmem with heq | hmem
    · exact hpoint heq
    · exact ne_of_isDigit (hplaces d hmem) hdigit rfl
  have hhead : (whole ++ '.' :: places).head?.any Char.isDigit = true := by
    cases whole with
    | nil => exact absurd rfl hne
    | cons c cs => exact hwhole c List.mem_cons_self
  have hmark : (minus x.isNegative ++ (whole ++ '.' :: places)).any isMark = true :=
    List.any_eq_true.mpr ⟨'.', by simp, rfl⟩
  have hlast : ¬((minus x.isNegative ++ (whole ++ '.' :: places)).getLast? = some 'M' ∧
      (minus x.isNegative ++ (whole ++ '.' :: places)).count 'M' = 1) := fun hd =>
    hnot (by decide) (by decide) rfl (List.mem_of_getLast? hd.1)
  rw [readAtom_of_looksNumeric (looksNumeric_minus _ hhead) (hnot (by decide) (by decide) rfl)
    (hnot (by decide) (by decide) rfl)]
  simp only [readNumber]
  rw [if_neg hlast]
  refine (if_pos hmark).trans ?_
  rw [hread]

/-- A number reads back from its text just if it has a fraction. -/
theorem readAtom_floatChars_eq_float_iff :
    readAtom (floatChars x) = .ok (.float x) ↔ x.hasFraction = true := by
  constructor
  · intro h
    by_contra hwhole
    have hnone := any_isMark_floatChars (Bool.not_eq_true _ ▸ hwhole)
    exact Bool.false_ne_true (hnone.symm.trans (any_isMark_of_readAtom h))
  · exact readAtom_floatChars

/-! ## Leaves -/

private theorem isAtomChar_of_mem_minus {negative : Bool} {c : Char} (h : c ∈ minus negative) :
    isAtomChar c = true := by
  cases negative with
  | true =>
    rw [List.mem_singleton.mp h]
    rfl
  | false => cases h

private theorem isAtomChar_of_mem_plain {d : Decimal} {c : Char} (h : c ∈ d.plain) :
    isAtomChar c = true := by
  by_cases hexponent : 0 ≤ d.exponent
  · exact isAtomChar_of_isDigit (Decimal.isDigit_of_mem_plain hexponent h)
  · obtain ⟨whole, places, hplain, -, hdigits, -⟩ := Decimal.plain_of_neg (Int.not_le.mp hexponent)
    obtain ⟨hwhole, hplaces⟩ := List.forall_mem_append.mp hdigits
    rw [hplain] at h
    rcases List.mem_append.mp h with h | h
    · exact isAtomChar_of_isDigit (hwhole c h)
    rcases List.mem_cons.mp h with rfl | h
    · rfl
    · exact isAtomChar_of_isDigit (hplaces c h)

private theorem plain_ne_nil (d : Decimal) : d.plain ≠ [] := by
  by_cases hexponent : 0 ≤ d.exponent
  · rw [Decimal.plain, if_pos hexponent]
    exact List.append_ne_nil_of_left_ne_nil Nat.toDigits_ne_nil _
  · obtain ⟨whole, places, hplain, hne, -⟩ := Decimal.plain_of_neg (Int.not_le.mp hexponent)
    rw [hplain]
    exact List.append_ne_nil_of_left_ne_nil hne _

theorem floatChars_ne_nil (x : Binary64) : floatChars x ≠ [] := by
  rw [floatChars]
  split
  · decide
  · apply List.append_ne_nil_of_right_ne_nil
    split
    · decide
    · exact plain_ne_nil _

theorem isAtomChar_of_mem_floatChars {x : Binary64} {c : Char} (h : c ∈ floatChars x) :
    isAtomChar c = true := by
  have hwords : ("NaN".toList ++ "inf".toList).all isAtomChar = true := rfl
  rw [List.all_eq_true] at hwords
  rw [floatChars] at h
  split at h
  · exact hwords c (List.mem_append_left _ h)
  rcases List.mem_append.mp h with h | h
  · exact isAtomChar_of_mem_minus h
  split at h
  · exact hwords c (List.mem_append_right _ h)
  · exact isAtomChar_of_mem_plain h

theorem readAtom_colon (body : List Char) :
    readAtom (':' :: body) = ((readName body).mapError .keyword).map .keyword := by
  have hwords : ∀ word ∈ ["nil".toList, "true".toList, "false".toList], word.head? ≠ some ':' := by
    decide
  have hconstant : ∀ word ∈ ["nil".toList, "true".toList, "false".toList], ':' :: body ≠ word :=
    fun word hword heq => hwords word hword (heq ▸ rfl)
  simp only [List.forall_mem_cons] at hconstant
  obtain ⟨hnil, htrue, hfalse, -⟩ := hconstant
  rw [readAtom, if_neg hnil, if_neg htrue, if_neg hfalse]
  cases readName body <;> rfl

namespace Value

theorem reread_boolean (b : Bool) :
    (Value.boolean b).Delimited ∧ (Value.boolean b).reread = .ok (.boolean b) := by
  have hne : (Value.boolean b).chars ≠ [] := by cases b <;> decide
  have hatom : (Value.boolean b).chars.all isAtomChar = true := by cases b <;> rfl
  obtain ⟨hdelimited, hreread⟩ := reread_of_atom hne (List.all_eq_true.mp hatom)
  refine ⟨hdelimited, hreread.trans ?_⟩
  cases b <;> rfl

theorem reread_integer (i : Int64) :
    (Value.integer i).Delimited ∧ (Value.integer i).reread = .ok (.integer i) := by
  have hne : (toString i.toInt).toList ≠ [] := by
    rw [toList_toString_int]
    exact List.append_ne_nil_of_right_ne_nil _ Nat.toDigits_ne_nil
  have hatom : ∀ c ∈ (toString i.toInt).toList, isAtomChar c = true := by
    intro c hc
    rw [toList_toString_int] at hc
    rcases List.mem_append.mp hc with hc | hc
    · exact isAtomChar_of_mem_minus hc
    · exact isAtomChar_of_isDigit (isDigit_of_mem_toDigits hc)
  rw [← chars_integer] at hne hatom
  obtain ⟨hdelimited, hreread⟩ := reread_of_atom hne hatom
  rw [chars_integer, readAtom_int64] at hreread
  exact ⟨hdelimited, hreread⟩

theorem reread_float (x : Binary64) :
    (Value.float x).Delimited ∧ (Value.float x).reread = readAtom (floatChars x) := by
  exact reread_of_atom (floatChars_ne_nil x) fun c hc => isAtomChar_of_mem_floatChars hc

/-- A keyword is read back if its name can be read at all. -/
theorem reread_keyword {n : Name} (h : ∀ c ∈ n.qualified.toList, isAtomChar c = true) :
    (Value.keyword n).Delimited ∧ (Value.keyword n).reread =
      ((readName n.qualified.toList).mapError .keyword).map .keyword := by
  have hatom : ∀ c ∈ ':' :: n.qualified.toList, isAtomChar c = true :=
    List.forall_mem_cons.mpr ⟨rfl, h⟩
  rw [← readAtom_colon, ← chars_keyword]
  exact reread_of_atom (List.cons_ne_nil _ _) hatom

theorem isTag_inst : (Name.plain "inst").IsTag :=
  ⟨by decide, by decide, List.all_eq_true.mp rfl, rfl⟩

theorem isTag_uuid : (Name.plain "uuid").IsTag :=
  ⟨by decide, by decide, List.all_eq_true.mp rfl, rfl⟩

/-- A value that is written as a string behind a tag is read back if the string is taken for it. -/
theorem reread_of_literal {n : Name} (hn : n.IsTag) {w : Value} {text : List Char}
    (hchars : w.chars = '#' :: (n.qualified.toList ++ ' ' :: quotedChars text))
    (h : Edn.tagged n (.string (String.ofList text)) = .ok w) :
    w.Delimited ∧ w.reread = .ok w := by
  obtain ⟨hstring, hreread⟩ := reread_string (String.ofList text)
  have hquoted : (Value.string (String.ofList text)).chars = quotedChars text :=
    congrArg quotedChars String.toList_ofList
  rw [← hquoted] at hchars
  obtain ⟨hdelimited, htag⟩ := reread_of_tag hn hstring hreread hchars
  exact ⟨hdelimited, htag.trans h⟩

theorem reread_instant {t : Instant} (hlow : 0 ≤ t.reading.year) (hhigh : t.reading.year < 10000) :
    (Value.instant t).Delimited ∧ (Value.instant t).reread = .ok (.instant t) := by
  have hword : "#inst ".toList = '#' :: ((Name.plain "inst").qualified.toList ++ [' ']) := rfl
  apply reread_of_literal isTag_inst
  · rw [chars_instant, hword, List.cons_append, List.append_assoc, List.singleton_append]
  · rw [Edn.tagged, if_pos rfl]
    simp only [String.toList_ofList, Instant.read?_text hlow hhigh]

theorem reread_uuid (u : Uuid) :
    (Value.uuid u).Delimited ∧ (Value.uuid u).reread = .ok (.uuid u) := by
  have hword : "#uuid ".toList = '#' :: ((Name.plain "uuid").qualified.toList ++ [' ']) := rfl
  apply reread_of_literal isTag_uuid
  · rw [chars_uuid, hword, List.cons_append, List.append_assoc, List.singleton_append]
  · rw [Edn.tagged, if_neg (by decide), if_pos rfl]
    simp only [String.toList_ofList, Uuid.read?_text]

/-- A value under a tag of no meaning of its own is read back if the value is. -/
theorem reread_tagged {n : Name} (hn : n.IsTag) (hinst : n ≠ Name.plain "inst")
    (huuid : n ≠ Name.plain "uuid") {v : Value} (hv : v.Delimited ∧ v.reread = .ok v) :
    (Value.tagged n v).Delimited ∧ (Value.tagged n v).reread = .ok (.tagged n v) := by
  obtain ⟨hdelimited, htag⟩ := reread_of_tag hn hv.1 hv.2 (chars_tagged n v)
  have hread : Edn.tagged n v = .ok (.tagged n v) := by
    simp only [Edn.tagged, hinst, huuid, if_false]
  exact ⟨hdelimited, htag.trans hread⟩

end Value

end FlatTree.Edn
