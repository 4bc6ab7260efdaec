import FlatTree.Json.Reader
import FlatTree.Proofs.Digits
import Mathlib.Data.List.TakeWhile

/-!
# Documents read from their text

What was written of a document is read up to its end, whatever stands behind it, so long as a number
could not go on with that. Escapes are undone one character at a time, whole numbers are told by
their digits, and arrays and objects are read item by item.
-/

namespace FlatTree.Json

/-! ## Texts -/

/-- How a character may be spelled in a text: behind a backslash by a letter, behind `\u` by the
four digits of its number, or as it is. -/
inductive Spells (c : Char) : List Char → Prop
  | letter {e : Char} (h : shortEscape? e = some c) : Spells c ['\\', e]
  | digits {p q r s : Char} (h : natOfHex? [p, q, r, s] = some c.toNat) (hc : c.toNat < 0xd800) :
      Spells c ['\\', 'u', p, q, r, s]
  | plain (hquote : c ≠ '"') (hbackslash : c ≠ '\\') (h : 0x20 ≤ c.toNat) : Spells c [c]

theorem natOfHex?_hexPair {n : Nat} (h : n < 0x100) :
    natOfHex? (['0', '0'] ++ hexPair n) = some n := by
  have hhigh : hexValue? (Nat.digitChar (n / 16)) = some (n / 16) := hexValue?_digitChar (by omega)
  have hlow : hexValue? (Nat.digitChar (n % 16)) = some (n % 16) := hexValue?_digitChar (by omega)
  have hzeros := natOfHex?_zeros_append 2 (hexPair n)
  refine hzeros.trans ?_
  simp only [natOfHex?, hexPair, List.foldlM_cons, List.foldlM_nil, hhigh, hlow, Option.map_some]
  exact congrArg some (by omega)

private theorem spells_escapeChar (c : Char) : Spells c (escapeChar c) := by
  unfold escapeChar
  split_ifs with h1 h2 h3 h4 h5 h6 h7 h8
  · rw [h1]
    exact .letter rfl
  · rw [h2]
    exact .letter rfl
  · rw [h3]
    exact .letter rfl
  · rw [h4]
    exact .letter rfl
  · rw [h5]
    exact .letter rfl
  · rw [h6]
    exact .letter rfl
  · rw [h7]
    exact .letter rfl
  · exact .digits (natOfHex?_hexPair (by omega)) (by omega)
  · exact .plain h1 h2 (Nat.not_lt.mp h8)

section

variable {c : Char} {s : List Char}

theorem unescape?_append (h : Spells c s) (rest : List Char) :
    unescape? (s ++ rest) = (unescape? rest).map (c :: ·) := by
  cases h with
  | @letter e h =>
    have hu : e ≠ 'u' := fun heq => nomatch heq ▸ h
    rw [List.cons_append, List.singleton_append, unescape?, h]
    · rfl
    · exact fun _ _ _ _ _ heq _ => hu heq
  | digits h hc =>
    simp only [List.cons_append, List.nil_append]
    rw [unescape?, h]
    simp only [bind, Option.bind]
    rw [if_pos (.inl hc), Char.ofNat_toNat]
  | plain hquote hbackslash h =>
    rw [List.singleton_append, unescape?]
    · exact fun _ _ _ _ _ heq _ => hbackslash heq
    · exact fun _ _ heq _ => hbackslash heq
    · exact fun heq _ => hbackslash heq

theorem readSpelling_append (h : Spells c s) (rest : List Char) :
    readSpelling (s ++ rest) = (readSpelling rest).map fun p => (s ++ p.1, p.2) := by
  cases h with
  | @letter e h =>
    have hu : e ≠ 'u' := fun heq => nomatch heq ▸ h
    rw [List.cons_append, List.singleton_append, readSpelling, h]
    · rfl
    · exact fun _ _ _ _ _ heq _ => hu heq
  | digits h hc =>
    simp only [List.cons_append, List.nil_append]
    rw [readSpelling, h]
    rfl
  | plain hquote hbackslash h =>
    have hallowed : ¬(c.toNat < 0x20 ∨ c = '\\') := by
      rintro (hlt | heq)
      · omega
      · exact hbackslash heq
    rw [List.singleton_append, readSpelling, if_neg hallowed]
    · rfl
    · exact hquote
    · exact fun _ _ _ _ _ heq _ => hbackslash heq
    · exact fun _ _ heq _ => hbackslash heq

end

/-- A text is read back from its spelling. -/
theorem unescape?_escape (s : String) : unescape? (escape s) = some s.toList := by
  rw [escape]
  induction s.toList with
  | nil => rfl
  | cons c cs ih =>
    rw [List.flatMap_cons, unescape?_append (spells_escapeChar c), ih]
    rfl

theorem textOf?_escape (s : String) : textOf? (escape s) = some s := by
  rw [textOf?, unescape?_escape, Option.map_some, String.ofList_toList]

/-- A spelling is read up to the quote behind it. -/
theorem readSpelling_escape (s : String) (rest : List Char) :
    readSpelling (escape s ++ '"' :: rest) = some (escape s, rest) := by
  rw [escape]
  induction s.toList with
  | nil => rfl
  | cons c cs ih =>
    rw [List.flatMap_cons, List.append_assoc, readSpelling_append (spells_escapeChar c), ih]
    rfl

/-! ## Whole numbers -/

/-- What may stand behind a document: nothing that a number could go on with. -/
def Stops (rest : List Char) : Prop :=
  ∀ c ∈ rest.head?, c.isDigit = false ∧ c ≠ '.' ∧ c ≠ 'e' ∧ c ≠ 'E'

theorem stops_nil : Stops [] :=
  fun _ h => nomatch h

theorem stops_cons {c : Char} (h : c.isDigit = false ∧ c ≠ '.' ∧ c ≠ 'e' ∧ c ≠ 'E')
    (cs : List Char) : Stops (c :: cs) :=
  fun _ hc => Option.some.inj hc ▸ h

/-- The spelling of a whole number: digits with no zero in front of others, and nothing more. -/
structure Numeral.Whole (n : Numeral) : Prop where
  digits : ∀ c ∈ n.whole, c.isDigit = true
  ne_nil : n.whole ≠ []
  zero : n.whole.head? = some '0' → n.whole = ['0']
  places : n.places = []
  exponent : n.exponent = none

private theorem eq_zero_of_head?_toDigits {n : Nat} (h : (Nat.toDigits 10 n).head? = some '0') :
    Nat.toDigits 10 n = ['0'] := by
  by_cases hn : n = 0
  · rw [hn]
    rfl
  · exact absurd h (head?_toDigits_ne_zero hn)

theorem whole_ofNat (n : Nat) : (Numeral.ofNat n).Whole :=
  ⟨fun _ => isDigit_of_mem_toDigits, Nat.toDigits_ne_nil, eq_zero_of_head?_toDigits, rfl, rfl⟩

theorem whole_ofInt (n : Int) : (Numeral.ofInt n).Whole :=
  ⟨fun _ => isDigit_of_mem_toDigits, Nat.toDigits_ne_nil, eq_zero_of_head?_toDigits, rfl, rfl⟩

theorem Numeral.Whole.chars_eq {n : Numeral} (h : n.Whole) :
    n.chars = minus n.negative ++ n.whole := by
  obtain ⟨negative, whole, places, exponent⟩ := n
  obtain rfl : places = [] := h.places
  obtain rfl : exponent = none := h.exponent
  simp [Numeral.chars, minus]

theorem splitMinus_append (negative : Bool) {cs : List Char}
    (h : cs.head?.any Char.isDigit = true) :
    splitMinus (minus negative ++ cs) = (negative, cs) := by
  cases negative with
  | true => rfl
  | false =>
    cases cs with
    | nil => cases h
    | cons c cs =>
      have hne : c ≠ '-' := by
        rintro rfl
        cases h
      simp only [minus, Bool.false_eq_true, if_false, List.nil_append]
      rw [splitMinus]
      exact fun _ heq => hne (List.cons.inj heq).1

private theorem takeWhile_stops {rest : List Char} (h : Stops rest) :
    rest.takeWhile Char.isDigit = [] ∧ rest.dropWhile Char.isDigit = rest := by
  cases rest with
  | nil => exact ⟨rfl, rfl⟩
  | cons c cs =>
    obtain ⟨hc, -⟩ := h c rfl
    exact ⟨List.takeWhile_cons_of_neg (Bool.eq_false_iff.mp hc),
      List.dropWhile_cons_of_neg (Bool.eq_false_iff.mp hc)⟩

private theorem readPlaces_stops {rest : List Char} (h : Stops rest) :
    readPlaces rest = some ([], rest) := by
  cases rest with
  | nil => rfl
  | cons c cs =>
    obtain ⟨-, hpoint, -⟩ := h c rfl
    rw [readPlaces]
    exact fun _ heq => hpoint (List.cons.inj heq).1

private theorem readExponent_stops {rest : List Char} (h : Stops rest) :
    readExponent rest = some (none, rest) := by
  cases rest with
  | nil => rfl
  | cons c cs =>
    obtain ⟨-, -, he, hE⟩ := h c rfl
    exact if_neg (not_or.mpr ⟨he, hE⟩)

/-- A whole number is read up to its last digit. -/
theorem readNumeral_append {n : Numeral} (h : n.Whole) {rest : List Char} (hrest : Stops rest) :
    readNumeral (n.chars ++ rest) = some (n, rest) := by
  obtain ⟨htake, hdrop⟩ := takeWhile_stops hrest
  have hhead : (n.whole ++ rest).head?.any Char.isDigit = true := by
    have hwhole := head?_any_isDigit h.ne_nil h.digits
    cases hn : n.whole with
    | nil => exact absurd hn h.ne_nil
    | cons c cs => rwa [hn] at hwhole
  have htakes : (n.whole ++ rest).takeWhile Char.isDigit = n.whole := by
    rw [List.takeWhile_append_of_pos h.digits, htake, List.append_nil]
  have hdrops : (n.whole ++ rest).dropWhile Char.isDigit = rest := by
    rw [List.dropWhile_append_of_pos h.digits, hdrop]
  have hfits : ¬(n.whole = [] ∨ n.whole.head? = some '0' ∧ n.whole ≠ ['0']) := by
    rintro (hnil | ⟨hzero, hne⟩)
    · exact h.ne_nil hnil
    · exact hne (h.zero hzero)
  rw [h.chars_eq, List.append_assoc, readNumeral, splitMinus_append _ hhead]
  simp only [htakes, hdrops, if_neg hfits, readPlaces_stops hrest, readExponent_stops hrest, bind,
    Option.bind]
  rw [← h.places, ← h.exponent]

theorem toInt?_ofNat (n : Nat) : (Numeral.ofNat n).toInt? = some n := by
  simp [Numeral.toInt?, Numeral.ofNat]

theorem toInt?_ofInt (n : Int) : (Numeral.ofInt n).toInt? = some n := by
  simp only [Numeral.toInt?, Numeral.ofInt, natOfDigits_toDigits]
  rw [if_neg (by simp)]
  by_cases hneg : n < 0
  · rw [decide_eq_true hneg, if_pos rfl, if_neg (by omega)]
    exact congrArg some (by omega)
  · rw [decide_eq_false hneg, if_neg Bool.false_ne_true]
    exact congrArg some (by omega)

theorem toNat64?_ofNat {n : Nat} (h : n < 0x10000000000000000) :
    (Numeral.ofNat n).toNat64? = some n := by
  rw [Numeral.toNat64?, toInt?_ofNat]
  exact if_pos h

theorem toInt64?_ofInt (i : Int64) : (Numeral.ofInt i.toInt).toInt64? = some i := by
  have hlow : -0x8000000000000000 ≤ i.toInt := i.le_toInt
  have hhigh : i.toInt < 0x8000000000000000 := i.toInt_lt
  rw [Numeral.toInt64?, toInt?_ofInt]
  dsimp only
  rw [if_pos ⟨hlow, hhigh⟩, Int64.ofInt_toInt]

/-! ## Readers -/

/-- The first document of a text, and what follows it. -/
def readOne (cs : List Char) : Option (Document × List Char) :=
  (readDocument cs).map fun p => (p.1, p.2.1)

/-- Items up to the closing bracket, and what follows it. -/
def readMany (cs : List Char) : Option (List Document × List Char) :=
  (readItems cs).map fun p => (p.1, p.2.1)

/-- Members up to the closing bracket, and what follows it. -/
def readPairs (cs : List Char) : Option (List (List Char × Document) × List Char) :=
  (readMembers cs).map fun p => (p.1, p.2.1)

/-- What follows a sign, if no other comes first. -/
def after? (sign : Char) (cs : List Char) : Option (List Char) :=
  match dropBlanks cs with
  | [] => none
  | c :: rest => if c = sign then some rest else none

/-- What the first character of a document makes of the text behind it. -/
def readOpened (c : Char) (rest : List Char) : Option (Document × List Char) :=
  match Opening.of c with
  | .array =>
    match after? ']' rest with
    | some tail => some (.array [], tail)
    | none => (readMany rest).map fun p => (.array p.1, p.2)
  | .object =>
    match after? '\x7d' rest with
    | some tail => some (.object [], tail)
    | none => (readPairs rest).map fun p => (.object p.1, p.2)
  | .string => (readSpelling rest).map fun p => (.string p.1, p.2)
  | .null => (skipWord? "ull".toList rest).map (.null, ·)
  | .true => (skipWord? "rue".toList rest).map (.boolean true, ·)
  | .false => (skipWord? "alse".toList rest).map (.boolean false, ·)
  | .number => (readNumeral (c :: rest)).map fun p => (.number p.1, p.2)

section

variable {cs rest : List Char} {c : Char}

theorem dropBlanks_of_not (h : isBlank c = false) (cs : List Char) :
    dropBlanks (c :: cs) = c :: cs :=
  List.dropWhile_cons_of_neg (Bool.eq_false_iff.mp h)

theorem after?_of_cons {sign : Char} {tail : List Char} (h : dropBlanks rest = sign :: tail) :
    after? sign rest = some tail := by
  rw [after?, h]
  exact if_pos rfl

theorem after?_of_ne {sign : Char} (h : ∀ tail, dropBlanks rest ≠ sign :: tail) :
    after? sign rest = none := by
  rw [after?]
  split
  · rfl
  · next c tail hb =>
    refine if_neg ?_
    rintro rfl
    exact h tail hb

theorem after?_of_cons_of_ne {sign : Char} (h : dropBlanks rest = c :: cs) (hne : c ≠ sign) :
    after? sign rest = none := by
  rw [after?, h]
  exact if_neg hne

theorem readOne_of_cons (h : dropBlanks cs = c :: rest) : readOne cs = readOpened c rest := by
  rw [readOne, readDocument, readOpened]
  split
  · next h' => cases h.symm.trans h'
  · next c' rest' h' =>
    obtain ⟨rfl, rfl⟩ := List.cons.inj (h.symm.trans h')
    dsimp only
    cases Opening.of c with
    | array =>
      dsimp only
      split
      · next hb =>
        rw [after?_of_cons hb]
        rfl
      · next hb =>
        rw [after?_of_ne hb, readMany]
        cases readItems rest <;> rfl
    | object =>
      dsimp only
      split
      · next hb =>
        rw [after?_of_cons hb]
        rfl
      · next hb =>
        rw [after?_of_ne hb, readPairs]
        cases readMembers rest <;> rfl
    | string =>
      dsimp only
      split
      · next hs => exact (congrArg (Option.map _) hs).symm
      · next hs => exact (congrArg (Option.map fun p => (Document.string p.1, p.2)) hs).symm
    | number =>
      dsimp only
      split
      · next hn => exact (congrArg (Option.map _) hn).symm
      · next hn => exact (congrArg (Option.map fun p => (Document.number p.1, p.2)) hn).symm
    | _ =>
      dsimp only
      split
      · next hw => exact (congrArg (Option.map _) hw).symm
      · next hw => exact (congrArg (Option.map _) hw).symm

/-- Behind an item stands the closing bracket, or a comma and more items. -/
theorem readMany_of_readOne {d : Document} {r : List Char} (h : readOne cs = some (d, r)) :
    readMany cs =
      match after? ']' r with
      | some tail => some ([d], tail)
      | none => (after? ',' r).bind fun tail => (readMany tail).map fun p => (d :: p.1, p.2) := by
  obtain ⟨⟨d', r', hr⟩, hread, heq⟩ := Option.map_eq_some_iff.mp h
  cases heq
  rw [readMany, readItems, hread]
  simp only [bind, Option.bind]
  split
  · next hb =>
    rw [after?_of_cons hb]
    rfl
  · next tail hb =>
    rw [after?_of_cons_of_ne hb (by decide), after?_of_cons hb]
    simp only [readMany]
    cases readItems tail <;> rfl
  · next hbracket hcomma =>
    rw [after?_of_ne hbracket, after?_of_ne hcomma]
    rfl

/-- Behind a member stands the closing bracket, or a comma and more members. -/
theorem readPairs_of_readOne {key tail r : List Char} {d : Document}
    (hkey : readSpelling rest = some (key, ':' :: tail)) (h : readOne tail = some (d, r)) :
    readPairs ('"' :: rest) =
      match after? '\x7d' r with
      | some tail => some ([(key, d)], tail)
      | none =>
        (after? ',' r).bind fun tail => (readPairs tail).map fun p => ((key, d) :: p.1, p.2) := by
  obtain ⟨⟨d', r', hr⟩, hread, heq⟩ := Option.map_eq_some_iff.mp h
  cases heq
  rw [readPairs, readMembers]
  have hquote : dropBlanks ('"' :: rest) = '"' :: rest := dropBlanks_of_not rfl rest
  have hcolon : dropBlanks (':' :: tail) = ':' :: tail := dropBlanks_of_not rfl tail
  split
  · next rest' hq =>
    cases hquote.symm.trans hq
    split
    · next hs => cases hkey.symm.trans hs
    · next key' r hs =>
      cases hkey.symm.trans hs
      dsimp only
      split
      · next tail' hc =>
        cases hcolon.symm.trans hc
        rw [hread]
        simp only [bind, Option.bind]
        split
        · next hb =>
          rw [after?_of_cons hb]
          rfl
        · next tail hb =>
          rw [after?_of_cons_of_ne hb (by decide), after?_of_cons hb]
          simp only [readPairs]
          cases readMembers tail <;> rfl
        · next hbrace hcomma =>
          rw [after?_of_ne hbrace, after?_of_ne hcomma]
          rfl
      · next hc => exact absurd hcolon (hc tail)
  · next hq => exact absurd hquote (hq rest)

end

/-! ## Documents -/

namespace Document

section

variable (d e : Document) (ds : List Document) (key : List Char) (m : List Char × Document)
  (ms : List (List Char × Document))

theorem chars_number (n : Numeral) : (number n).chars = n.chars := by
  rw [chars]

theorem chars_string (s : List Char) : (string s).chars = '"' :: (s ++ ['"']) := by
  rw [chars, quoted, List.cons_append]

theorem chars_array : (array ds).chars = '[' :: (itemsChars ds ++ [']']) := by
  rw [chars, List.cons_append]

theorem chars_object : (object ms).chars = '\x7b' :: (membersChars ms ++ ['\x7d']) := by
  rw [chars, List.cons_append]

theorem itemsChars_singleton : itemsChars [d] = d.chars := by
  rw [itemsChars]

theorem itemsChars_cons_cons :
    itemsChars (d :: e :: ds) = d.chars ++ ',' :: itemsChars (e :: ds) := by
  rw [itemsChars]

private theorem membersChars_singleton :
    membersChars [(key, d)] = '"' :: (key ++ '"' :: ':' :: d.chars) := by
  simp [membersChars, quoted]

private theorem membersChars_cons_cons : membersChars ((key, d) :: m :: ms) =
    '"' :: (key ++ '"' :: ':' :: (d.chars ++ ',' :: membersChars (m :: ms))) := by
  simp [membersChars, quoted]

end

/-- The text of a document begins with neither a blank nor a closing bracket and is read up to its
end, whatever stands behind it. -/
structure Reread (d : Document) : Prop where
  begins : ∃ c cs, d.chars = c :: cs ∧ isBlank c = false ∧ c ≠ ']'
  ends : ∀ rest, Stops rest → readOne (d.chars ++ rest) = some (d, rest)

theorem reread_of_opened {d : Document} {c : Char} {cs : List Char} (hchars : d.chars = c :: cs)
    (hblank : isBlank c = false) (hbracket : c ≠ ']')
    (h : ∀ rest, Stops rest → readOpened c (cs ++ rest) = some (d, rest)) : d.Reread := by
  refine ⟨⟨c, cs, hchars, hblank, hbracket⟩, fun rest hrest => ?_⟩
  rw [hchars, List.cons_append, readOne_of_cons (dropBlanks_of_not hblank (cs ++ rest)),
    h rest hrest]

theorem reread_null : null.Reread :=
  reread_of_opened rfl rfl (by decide) fun _ _ => rfl

theorem reread_boolean (b : Bool) : (boolean b).Reread := by
  cases b
  · exact reread_of_opened rfl rfl (by decide) fun _ _ => rfl
  · exact reread_of_opened rfl rfl (by decide) fun _ _ => rfl

theorem reread_ofText (s : String) : (ofText s).Reread := by
  refine reread_of_opened (chars_string (escape s)) rfl (by decide) fun rest _ => ?_
  have hquote : Opening.of '"' = .string := rfl
  rw [readOpened, hquote, List.append_assoc, List.singleton_append, readSpelling_escape]
  rfl

theorem opening_of_isDigit {c : Char} (h : c.isDigit = true) :
    Opening.of c = .number ∧ isBlank c = false ∧ c ≠ ']' := by
  have hne : ∀ {d : Char}, d.isDigit = false → c ≠ d := by
    rintro _ hd rfl
    exact Bool.false_ne_true (hd.symm.trans h)
  refine ⟨?_, ?_, hne rfl⟩
  · rw [Opening.of, if_neg (hne rfl), if_neg (hne rfl), if_neg (hne rfl), if_neg (hne rfl),
      if_neg (hne rfl), if_neg (hne rfl)]
  · rw [isBlank, beq_eq_false_iff_ne.mpr (hne rfl), beq_eq_false_iff_ne.mpr (hne rfl),
      beq_eq_false_iff_ne.mpr (hne rfl), beq_eq_false_iff_ne.mpr (hne rfl)]
    rfl

/-- A whole number begins with a minus or a digit. -/
theorem chars_of_whole {n : Numeral} (h : n.Whole) :
    ∃ c cs, n.chars = c :: cs ∧ Opening.of c = .number ∧ isBlank c = false ∧ c ≠ ']' := by
  rw [h.chars_eq]
  cases n.negative with
  | true => exact ⟨'-', n.whole, rfl, rfl, rfl, by decide⟩
  | false =>
    cases hn : n.whole with
    | nil => exact absurd hn h.ne_nil
    | cons c cs => exact ⟨c, cs, rfl, opening_of_isDigit (h.digits c (hn ▸ List.mem_cons_self))⟩

theorem reread_number {n : Numeral} (h : n.Whole) : (number n).Reread := by
  obtain ⟨c, cs, hchars, hopen, hblank, hbracket⟩ := chars_of_whole h
  refine reread_of_opened ((chars_number n).trans hchars) hblank hbracket fun rest hrest => ?_
  rw [readOpened, hopen, ← List.cons_append, ← hchars]
  dsimp only
  rw [readNumeral_append h hrest]
  rfl

/-! ### Arrays -/

private theorem itemsChars_begins {ds : List Document} (hne : ds ≠ []) (h : ∀ d ∈ ds, d.Reread) :
    ∃ c cs, itemsChars ds = c :: cs ∧ isBlank c = false ∧ c ≠ ']' := by
  cases ds with
  | nil => exact absurd rfl hne
  | cons d ds =>
    obtain ⟨c, cs, hchars, hc⟩ := (h d List.mem_cons_self).begins
    cases ds with
    | nil => exact ⟨c, cs, (itemsChars_singleton d).trans hchars, hc⟩
    | cons e ds =>
      refine ⟨c, cs ++ ',' :: itemsChars (e :: ds), ?_, hc⟩
      rw [itemsChars_cons_cons, hchars, List.cons_append]

theorem readMany_itemsChars {ds : List Document} (hne : ds ≠ []) (h : ∀ d ∈ ds, d.Reread)
    (rest : List Char) : readMany (itemsChars ds ++ ']' :: rest) = some (ds, rest) := by
  induction ds with
  | nil => exact absurd rfl hne
  | cons d ds ih =>
    obtain ⟨hd, hds⟩ := List.forall_mem_cons.mp h
    cases ds with
    | nil =>
      rw [itemsChars_singleton,
        readMany_of_readOne (hd.ends (']' :: rest) (stops_cons (by decide) rest))]
      rfl
    | cons e ds =>
      have hcomma : Stops (',' :: (itemsChars (e :: ds) ++ ']' :: rest)) :=
        stops_cons (by decide) _
      have hread := readMany_of_readOne (hd.ends _ hcomma)
      have hmore := ih (List.cons_ne_nil e ds) hds
      have hbracket : after? ']' (',' :: (itemsChars (e :: ds) ++ ']' :: rest)) = none := rfl
      have hafter : after? ',' (',' :: (itemsChars (e :: ds) ++ ']' :: rest)) =
          some (itemsChars (e :: ds) ++ ']' :: rest) := rfl
      rw [itemsChars_cons_cons, List.append_assoc, List.cons_append, hread, hbracket, hafter]
      dsimp only [Option.bind]
      rw [hmore]
      rfl

theorem reread_array {items : List Document} (h : ∀ d ∈ items, d.Reread) :
    (array items).Reread := by
  have hbracket : Opening.of '[' = .array := rfl
  refine reread_of_opened (chars_array items) rfl (by decide) fun rest _ => ?_
  rw [readOpened, hbracket, List.append_assoc, List.singleton_append]
  by_cases hne : items = []
  · subst hne
    rfl
  · obtain ⟨c, cs, hchars, hblank, hc⟩ := itemsChars_begins hne h
    have hopen : after? ']' (itemsChars items ++ ']' :: rest) = none := by
      rw [hchars, List.cons_append]
      exact after?_of_cons_of_ne (dropBlanks_of_not hblank _) hc
    dsimp only
    rw [hopen, readMany_itemsChars hne h]
    rfl

/-! ### Objects -/

private theorem membersChars_begins {ms : List (List Char × Document)} (hne : ms ≠ []) :
    ∃ cs, membersChars ms = '"' :: cs := by
  rcases ms with _ | ⟨⟨key, d⟩, _ | ⟨m, ms⟩⟩
  · exact absurd rfl hne
  · exact ⟨_, membersChars_singleton d key⟩
  · exact ⟨_, membersChars_cons_cons d key m ms⟩

/-- Members whose keys are spelled as they should be. -/
def Members (ms : List (List Char × Document)) : Prop :=
  ∀ m ∈ ms, (∃ name, m.1 = escape name) ∧ m.2.Reread

theorem readPairs_membersChars {ms : List (List Char × Document)} (hne : ms ≠ [])
    (h : Members ms) (rest : List Char) :
    readPairs (membersChars ms ++ '\x7d' :: rest) = some (ms, rest) := by
  induction ms with
  | nil => exact absurd rfl hne
  | cons m ms ih =>
    obtain ⟨⟨⟨name, hkey⟩, hm⟩, hms⟩ := List.forall_mem_cons.mp h
    obtain ⟨key, d⟩ := m
    obtain rfl : key = escape name := hkey
    cases ms with
    | nil =>
      have hread := readPairs_of_readOne (readSpelling_escape name _)
        (hm.ends ('\x7d' :: rest) (stops_cons (by decide) rest))
      rw [membersChars_singleton, List.cons_append, List.append_assoc, List.cons_append,
        List.cons_append, hread]
      rfl
    | cons e ms =>
      have hcomma : Stops (',' :: (membersChars (e :: ms) ++ '\x7d' :: rest)) :=
        stops_cons (by decide) _
      have hread := readPairs_of_readOne (readSpelling_escape name _) (hm.ends _ hcomma)
      have hmore := ih (List.cons_ne_nil e ms) hms
      have hbrace : after? '\x7d' (',' :: (membersChars (e :: ms) ++ '\x7d' :: rest)) = none := rfl
      have hafter : after? ',' (',' :: (membersChars (e :: ms) ++ '\x7d' :: rest)) =
          some (membersChars (e :: ms) ++ '\x7d' :: rest) := rfl
      rw [membersChars_cons_cons, List.cons_append, List.append_assoc, List.cons_append,
        List.cons_append, List.append_assoc, List.cons_append, hread, hbrace, hafter]
      dsimp only [Option.bind]
      rw [hmore]
      rfl

theorem reread_object {ms : List (List Char × Document)} (h : Members ms) : (object ms).Reread := by
  have hbrace : Opening.of '\x7b' = .object := rfl
  refine reread_of_opened (chars_object ms) rfl (by decide) fun rest _ => ?_
  rw [readOpened, hbrace, List.append_assoc, List.singleton_append]
  by_cases hne : ms = []
  · subst hne
    rfl
  · obtain ⟨cs, hchars⟩ := membersChars_begins hne
    have hopen : after? '\x7d' (membersChars ms ++ '\x7d' :: rest) = none := by
      rw [hchars]
      rfl
    dsimp only
    rw [hopen, readPairs_membersChars hne h]
    rfl

theorem read?_eq (text : String) : read? text =
    (readOne text.toList).bind fun p => if dropBlanks p.2 = [] then some p.1 else none := by
  rw [read?, readOne]
  cases readDocument text.toList <;> rfl

/-- A document is read back from its whole text. -/
theorem Reread.read?_text {d : Document} (h : d.Reread) : read? d.text = some d := by
  have hone : readOne d.chars = some (d, []) := by
    rw [← List.append_nil d.chars]
    exact h.ends [] stops_nil
  rw [read?_eq, text, String.toList_ofList, hone]
  rfl

end Document

end FlatTree.Json
