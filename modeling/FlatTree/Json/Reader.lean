import FlatTree.Json.Document

/-!
# Reading JSON

A document is read from the front of a text; a whole text is one document and blanks. Every reader
returns what is left together with the proof that it is shorter, which is why reading ends.
-/

namespace FlatTree.Json

abbrev Rest (cs : List Char) := { rest : List Char // rest.length < cs.length }

def isBlank (c : Char) : Bool :=
  c == ' ' || c == '\n' || c == '\t' || c == '\r'

def dropBlanks (cs : List Char) : List Char :=
  cs.dropWhile isBlank

theorem length_dropBlanks_le (cs : List Char) : (dropBlanks cs).length ≤ cs.length :=
  (List.dropWhile_sublist _).length_le

theorem length_lt_of_dropBlanks {cs rest : List Char} {c : Char} (h : dropBlanks cs = c :: rest) :
    rest.length < cs.length := by
  have := length_dropBlanks_le cs
  rwa [h] at this

/-- The spelling of a text behind its opening quote, and what follows the closing one. Escapes must
be of a known kind, and controls must be escaped. -/
def readSpelling : List Char → Option (List Char × List Char)
  | [] => none
  | '"' :: cs => some ([], cs)
  | '\\' :: 'u' :: a :: b :: c :: d :: cs =>
    if (natOfHex? [a, b, c, d]).isSome then
      (readSpelling cs).map fun (s, r) => ('\\' :: 'u' :: a :: b :: c :: d :: s, r)
    else none
  | '\\' :: c :: cs =>
    if (shortEscape? c).isSome then (readSpelling cs).map fun (s, r) => ('\\' :: c :: s, r)
    else none
  | c :: cs =>
    if c.toNat < 0x20 ∨ c = '\\' then none else (readSpelling cs).map fun (s, r) => (c :: s, r)

theorem length_lt_of_readSpelling {cs s r : List Char} (h : readSpelling cs = some (s, r)) :
    r.length < cs.length := by
  fun_induction readSpelling cs generalizing s r with
  | case1 => cases h
  | case2 => cases h; simp
  | case3 a b c d cs _ ih =>
    obtain ⟨p, hp, he⟩ := Option.map_eq_some_iff.mp h
    have := ih (s := p.1) (r := p.2) hp
    simp only [Prod.mk.injEq] at he
    simp only [List.length_cons, ← he.2]
    omega
  | case4 => cases h
  | case5 c cs _ _ ih =>
    obtain ⟨p, hp, he⟩ := Option.map_eq_some_iff.mp h
    have := ih (s := p.1) (r := p.2) hp
    simp only [Prod.mk.injEq] at he
    simp only [List.length_cons, ← he.2]
    omega
  | case6 => cases h
  | case7 => cases h
  | case8 c cs _ _ _ _ ih =>
    obtain ⟨p, hp, he⟩ := Option.map_eq_some_iff.mp h
    have := ih (s := p.1) (r := p.2) hp
    simp only [Prod.mk.injEq] at he
    simp only [List.length_cons, ← he.2]
    omega

def splitMinus : List Char → Bool × List Char
  | '-' :: cs => (true, cs)
  | cs => (false, cs)

def readPlaces : List Char → Option (List Char × List Char)
  | '.' :: cs =>
    let ds := cs.takeWhile Char.isDigit
    if ds = [] then none else some (ds, cs.dropWhile Char.isDigit)
  | cs => some ([], cs)

def readExponent : List Char → Option (Option Int × List Char)
  | c :: cs =>
    if c = 'e' ∨ c = 'E' then
      let (negative, ds) := Decimal.splitSign cs
      let digits := ds.takeWhile Char.isDigit
      if digits = [] then none
      else
        let e : Int := natOfDigits digits
        some (some (if negative then -e else e), ds.dropWhile Char.isDigit)
    else some (none, c :: cs)
  | [] => some (none, [])

/-- A number. Zero is the only number that begins with zero. -/
def readNumeral (cs : List Char) : Option (Numeral × List Char) := do
  let (negative, cs) := splitMinus cs
  let whole := cs.takeWhile Char.isDigit
  if whole = [] ∨ (whole.head? = some '0' ∧ whole ≠ ['0']) then none
  else
    let (places, cs) ← readPlaces (cs.dropWhile Char.isDigit)
    let (exponent, cs) ← readExponent cs
    some (⟨negative, whole, places, exponent⟩, cs)

theorem length_dropDigits_le (cs : List Char) :
    (cs.dropWhile Char.isDigit).length ≤ cs.length :=
  (List.dropWhile_sublist _).length_le

theorem length_le_of_readPlaces {cs ds r : List Char} (h : readPlaces cs = some (ds, r)) :
    r.length ≤ cs.length := by
  unfold readPlaces at h
  split at h
  · next cs =>
    have := length_dropDigits_le cs
    simp only at h
    split at h
    · cases h
    · cases h
      simp only [List.length_cons]
      omega
  · cases h
    exact Nat.le_refl _

theorem length_splitSign_le (cs : List Char) : (Decimal.splitSign cs).2.length ≤ cs.length := by
  unfold Decimal.splitSign
  split <;> simp

theorem length_le_of_readExponent {cs r : List Char} {e : Option Int}
    (h : readExponent cs = some (e, r)) : r.length ≤ cs.length := by
  unfold readExponent at h
  split at h
  · next c cs =>
    split at h
    · have h₁ := length_splitSign_le cs
      have h₂ := length_dropDigits_le (Decimal.splitSign cs).2
      simp only at h
      split at h
      · cases h
      · cases h
        simp only [List.length_cons]
        omega
    · cases h
      exact Nat.le_refl _
  · cases h
    exact Nat.le_refl _

theorem length_splitMinus_le (cs : List Char) : (splitMinus cs).2.length ≤ cs.length := by
  unfold splitMinus
  split <;> simp

theorem length_lt_of_readNumeral {cs r : List Char} {n : Numeral}
    (h : readNumeral cs = some (n, r)) : r.length < cs.length := by
  unfold readNumeral at h
  have h₁ := length_splitMinus_le cs
  generalize splitMinus cs = p at h h₁
  obtain ⟨negative, ds⟩ := p
  simp only at h h₁
  split at h
  · cases h
  · next hw =>
    simp only [not_or] at hw
    obtain ⟨⟨places, r₁⟩, hp, h⟩ := Option.bind_eq_some_iff.mp h
    obtain ⟨⟨e, r₂⟩, he, h⟩ := Option.bind_eq_some_iff.mp h
    cases h
    have h₂ := length_le_of_readPlaces hp
    have h₃ := length_le_of_readExponent he
    have h₄ := congrArg List.length (List.takeWhile_append_dropWhile (p := Char.isDigit) (l := ds))
    have h₅ := List.length_pos_iff.mpr hw.1
    simp only [List.length_append] at h₂ h₃ h₄ ⊢
    omega

def skipWord? (word cs : List Char) : Option (List Char) :=
  if word.isPrefixOf cs then some (cs.drop word.length) else none

theorem length_le_of_skipWord? {word cs r : List Char} (h : skipWord? word cs = some r) :
    r.length ≤ cs.length := by
  unfold skipWord? at h
  split at h <;> cases h
  simp

inductive Opening where
  | array
  | object
  | string
  | null
  | true
  | false
  | number
deriving DecidableEq, Repr

/-- What a character opens. Whether a number really begins with it is left to the number. -/
def Opening.of (c : Char) : Opening :=
  if c = '[' then .array
  else if c = '\x7b' then .object
  else if c = '"' then .string
  else if c = 'n' then .null
  else if c = 't' then .true
  else if c = 'f' then .false
  else .number

mutual

def readDocument (cs : List Char) : Option (Document × Rest cs) :=
  match h : dropBlanks cs with
  | [] => none
  | c :: rest =>
    have hlen : rest.length < cs.length := length_lt_of_dropBlanks h
    match Opening.of c with
    | .array =>
      match hb : dropBlanks rest with
      | ']' :: tail =>
        some (.array [], ⟨tail, Nat.lt_trans (length_lt_of_dropBlanks hb) hlen⟩)
      | _ => do
        let (items, ⟨r, hr⟩) ← readItems rest
        some (.array items, ⟨r, Nat.lt_trans hr hlen⟩)
    | .object =>
      match hb : dropBlanks rest with
      | '\x7d' :: tail =>
        some (.object [], ⟨tail, Nat.lt_trans (length_lt_of_dropBlanks hb) hlen⟩)
      | _ => do
        let (members, ⟨r, hr⟩) ← readMembers rest
        some (.object members, ⟨r, Nat.lt_trans hr hlen⟩)
    | .string =>
      match hs : readSpelling rest with
      | none => none
      | some (s, r) => some (.string s, ⟨r, Nat.lt_trans (length_lt_of_readSpelling hs) hlen⟩)
    | .null =>
      match hw : skipWord? "ull".toList rest with
      | none => none
      | some r => some (.null, ⟨r, Nat.lt_of_le_of_lt (length_le_of_skipWord? hw) hlen⟩)
    | .true =>
      match hw : skipWord? "rue".toList rest with
      | none => none
      | some r => some (.boolean true, ⟨r, Nat.lt_of_le_of_lt (length_le_of_skipWord? hw) hlen⟩)
    | .false =>
      match hw : skipWord? "alse".toList rest with
      | none => none
      | some r => some (.boolean false, ⟨r, Nat.lt_of_le_of_lt (length_le_of_skipWord? hw) hlen⟩)
    | .number =>
      match hn : readNumeral (c :: rest) with
      | none => none
      | some (n, r) =>
        some (.number n,
          ⟨r, Nat.lt_of_le_of_lt (Nat.le_of_lt_succ (length_lt_of_readNumeral hn)) hlen⟩)
termination_by 2 * cs.length

def readItems (cs : List Char) : Option (List Document × Rest cs) := do
  let (d, ⟨r, hr⟩) ← readDocument cs
  match h : dropBlanks r with
  | ']' :: tail => some ([d], ⟨tail, Nat.lt_trans (length_lt_of_dropBlanks h) hr⟩)
  | ',' :: tail =>
    have htail : tail.length < cs.length := Nat.lt_trans (length_lt_of_dropBlanks h) hr
    let (ds, ⟨r', hr'⟩) ← readItems tail
    some (d :: ds, ⟨r', Nat.lt_trans hr' htail⟩)
  | _ => none
termination_by 2 * cs.length + 1

def readMembers (cs : List Char) : Option (List (List Char × Document) × Rest cs) :=
  match h : dropBlanks cs with
  | '"' :: rest =>
    match hs : readSpelling rest with
    | none => none
    | some (key, r) =>
      have hr : r.length < cs.length :=
        Nat.lt_trans (length_lt_of_readSpelling hs) (length_lt_of_dropBlanks h)
      match hc : dropBlanks r with
      | ':' :: tail => do
        have htail : tail.length < cs.length := Nat.lt_trans (length_lt_of_dropBlanks hc) hr
        let (d, ⟨r', hr'⟩) ← readDocument tail
        have hr'' : r'.length < cs.length := Nat.lt_trans hr' htail
        match he : dropBlanks r' with
        | '\x7d' :: tail' =>
          some ([(key, d)], ⟨tail', Nat.lt_trans (length_lt_of_dropBlanks he) hr''⟩)
        | ',' :: tail' =>
          have htail' : tail'.length < cs.length :=
            Nat.lt_trans (length_lt_of_dropBlanks he) hr''
          let (ms, ⟨r'', h''⟩) ← readMembers tail'
          some ((key, d) :: ms, ⟨r'', Nat.lt_trans h'' htail'⟩)
        | _ => none
      | _ => none
  | _ => none
termination_by 2 * cs.length + 1

end

def Document.read? (text : String) : Option Document := do
  let (d, ⟨r, _⟩) ← readDocument text.toList
  if dropBlanks r = [] then some d else none

end FlatTree.Json
