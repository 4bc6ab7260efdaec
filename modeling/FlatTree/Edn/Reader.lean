import FlatTree.Edn.Atom
import FlatTree.Edn.Order
import FlatTree.Edn.Printer
import FlatTree.Text.WhiteSpace

/-!
# Reading values

A value is read from the front of a text. Blanks and commas separate, and a semicolon begins a
comment that ends with its line. Every step takes at least one character, which is why reading
ends: each reader returns what is left together with the proof that it is shorter.
-/

namespace FlatTree.Edn

abbrev Shorter (cs : List Char) := { rest : List Char // rest.length < cs.length }

def isBlank (c : Char) : Bool :=
  c == ',' || CharSet.whiteSpace.has c

def dropComment : List Char → List Char
  | ';' :: cs => (cs.dropWhile (· ≠ '\n')).drop 1
  | cs => cs

theorem length_dropWhile_le {α : Type} (p : α → Bool) (l : List α) :
    (l.dropWhile p).length ≤ l.length :=
  (List.dropWhile_sublist p).length_le

theorem length_dropComment_le (cs : List Char) : (dropComment cs).length ≤ cs.length := by
  unfold dropComment
  split
  · next r =>
    have := length_dropWhile_le (· ≠ '\n') r
    simp only [List.length_drop, List.length_cons]
    omega
  · exact Nat.le_refl _

theorem length_lt_of_dropComment {cs rest : List Char} (h : dropComment cs = ';' :: rest) :
    (';' :: rest).length < cs.length := by
  unfold dropComment at h
  split at h
  · next r =>
    have := congrArg List.length h
    have := length_dropWhile_le (· ≠ '\n') r
    simp only [List.length_drop, List.length_cons] at *
    omega
  · next hne => exact absurd h (hne rest)

theorem length_rest_lt {cs rest : List Char} {c : Char} (h : dropComment cs = c :: rest) :
    rest.length < cs.length := by
  have := length_dropComment_le cs
  rwa [h] at this

/-- The gap before a closing bracket or an item: blanks, each with at most one comment before it,
and at most one more comment. -/
def dropGap (cs : List Char) : List Char :=
  match h : dropComment cs with
  | [] => []
  | c :: rest =>
    have := length_rest_lt h
    if isBlank c then dropGap rest else c :: rest
termination_by cs.length

def dropBlanks (cs : List Char) : List Char :=
  match h : dropComment cs with
  | [] => []
  | c :: rest =>
    have := length_rest_lt h
    if isBlank c then dropBlanks rest
    else if hc : c = ';' then
      have : (c :: rest).length < cs.length := by subst hc; exact length_lt_of_dropComment h
      dropBlanks (c :: rest)
    else c :: rest
termination_by cs.length

theorem length_dropGap_le (cs : List Char) : (dropGap cs).length ≤ cs.length := by
  fun_induction dropGap cs with
  | case1 => simp
  | case2 cs c rest h this hb ih => omega
  | case3 cs c rest h this hb => exact this

theorem length_dropBlanks_le (cs : List Char) : (dropBlanks cs).length ≤ cs.length := by
  fun_induction dropBlanks cs with
  | case1 => simp
  | case2 cs c rest h this hb ih => omega
  | case3 cs rest h this hb hlt ih => omega
  | case4 cs c rest h this hb hc => exact this

/-- The characters of an atom and what follows. A comment inside is dropped and does not end it. -/
def scanAtom (cs : List Char) : List Char × List Char :=
  match h : dropComment cs with
  | [] => ([], [])
  | c :: rest =>
    have := length_rest_lt h
    if isAtomChar c then
      let (atom, rest) := scanAtom rest
      (c :: atom, rest)
    else ([], c :: rest)
termination_by cs.length

theorem length_scanAtom_le (cs : List Char) : (scanAtom cs).2.length ≤ cs.length := by
  fun_induction scanAtom cs with
  | case1 => simp
  | case2 cs c rest h this hc atom rest' heq ih =>
    simp only [heq] at ih
    exact Nat.le_of_lt (Nat.lt_of_le_of_lt ih this)
  | case3 cs c rest h this hc => exact this

/-- The character that four hexadecimal digits name, if it is one and no half of a pair. -/
def hexCharacter? (cs : List Char) : Option Char := do
  let n ← natOfHex? cs
  if n < 0xd800 ∨ 0xdfff < n then some (Char.ofNat n) else none

/-- The number behind `\u` has four digits, or a plus sign and three. -/
def numberedCharacter? : List Char → Option Char
  | '+' :: cs => hexCharacter? cs
  | cs => hexCharacter? cs

def readString : List Char → Except ReadError (List Char × List Char)
  | [] => .error .unexpectedEndOfInput
  | '"' :: cs => .ok ([], cs)
  | '\\' :: 't' :: cs => (readString cs).map fun (s, r) => ('\t' :: s, r)
  | '\\' :: 'r' :: cs => (readString cs).map fun (s, r) => ('\r' :: s, r)
  | '\\' :: 'n' :: cs => (readString cs).map fun (s, r) => ('\n' :: s, r)
  | '\\' :: '\\' :: cs => (readString cs).map fun (s, r) => ('\\' :: s, r)
  | '\\' :: '"' :: cs => (readString cs).map fun (s, r) => ('"' :: s, r)
  | '\\' :: 'u' :: a :: b :: c :: d :: cs =>
    match numberedCharacter? [a, b, c, d] with
    | some e => (readString cs).map fun (s, r) => (e :: s, r)
    | none => .error .invalidStringEscape
  | '\\' :: _ => .error .invalidStringEscape
  | c :: cs => (readString cs).map fun (s, r) => (c :: s, r)

theorem length_le_of_readString {cs s r : List Char} (h : readString cs = .ok (s, r)) :
    r.length ≤ cs.length := by
  have step {cs : List Char} {e : Char} {s r : List Char}
      (ih : ∀ {s r : List Char}, readString cs = .ok (s, r) → r.length ≤ cs.length)
      (h : (readString cs).map (fun p => (e :: p.1, p.2)) = .ok (s, r)) :
      r.length ≤ cs.length := by
    cases hc : readString cs with
    | error => simp [hc, Except.map] at h
    | ok p =>
      simp only [hc, Except.map, Except.ok.injEq, Prod.mk.injEq] at h
      exact h.2 ▸ ih (s := p.1) hc
  fun_induction readString cs generalizing s r with
  | case1 => cases h
  | case2 => cases h; simp
  | case3 cs ih | case4 cs ih | case5 cs ih | case6 cs ih | case7 cs ih =>
    have := step ih h
    simp only [List.length_cons]
    omega
  | case8 a b c d cs e he ih =>
    have := step ih h
    simp only [List.length_cons]
    omega
  | case9 => cases h
  | case10 => cases h
  | case11 c cs _ _ _ _ _ _ _ _ ih =>
    have := step ih h
    simp only [List.length_cons]
    omega

/-- The rest of a character behind its backslash: a name, `u` and a number as in a text, or the
character itself, which no letter or digit may follow. -/
def readCharacter (cs : List Char) : Except ReadError (Char × List Char) :=
  match namedCharacters.find? fun n => n.1.isPrefixOf cs with
  | some (name, c) => .ok (c, cs.drop name.length)
  | none =>
    match cs with
    | [] => .error .invalidCharacter
    | c :: rest =>
      if c = 'u' ∧ 4 ≤ (String.ofList (rest.take 4)).utf8ByteSize then
        match numberedCharacter? (rest.take 4) with
        | some e => if 4 ≤ rest.length then .ok (e, rest.drop 4) else .error .invalidCharacter
        | none => .error .invalidCharacter
      else if rest.head?.any isAtomChar then .error .invalidCharacter
      else .ok (c, rest)

theorem length_le_of_readCharacter {cs r : List Char} {c : Char}
    (h : readCharacter cs = .ok (c, r)) : r.length ≤ cs.length := by
  unfold readCharacter at h
  split at h
  · cases h
    simp
  · split at h
    · cases h
    · split at h
      · split at h
        · split at h
          · cases h
            simp
            omega
          · cases h
        · cases h
      · split at h
        · cases h
        · cases h
          simp

def pairs? : List Value → Option (List (Value × Value))
  | [] => some []
  | [_] => none
  | k :: v :: items => (pairs? items).map ((k, v) :: ·)

/-- The map of the items, if they come in pairs and no key repeats. -/
def mapOf (items : List Value) : Except ReadError (List (Value × Value)) :=
  match pairs? items with
  | none => .error .oddMapElements
  | some pairs => pairs.foldlM (fun es (k, v) =>
      if (Entries.get? k es).isSome then .error .duplicateKey else .ok (Entries.put k v es)) []

def setOf (items : List Value) : Except ReadError (List Value) :=
  items.foldlM (fun vs v =>
    if vs.any fun w => compare v w == .eq then .error .duplicateElement else .ok (putItem v vs)) []

/-- Puts the keywords among the keys that are outside any namespace into one. -/
def inNamespace (space : String) (entries : List (Value × Value)) : List (Value × Value) :=
  entries.foldl (fun es (k, v) =>
    match k with
    | .keyword ⟨none, base⟩ => Entries.put (.keyword ⟨some space, base⟩) v es
    | k => Entries.put k v es) []

def tagged (tag : Name) (v : Value) : Except ReadError Value :=
  if tag = Name.plain "inst" then
    match v with
    | .string s =>
      match Instant.read? s.toList with
      | some t => .ok (.instant t)
      | none => .error .invalidInstant
    | _ => .error .invalidInstant
  else if tag = Name.plain "uuid" then
    match v with
    | .string s =>
      match Uuid.read? s.toList with
      | some u => .ok (.uuid u)
      | none => .error .invalidUuid
    | _ => .error .invalidUuid
  else .ok (.tagged tag v)

/-- The value under a tag that is a keyword: the namespace of the keys of a map. -/
def namespaced (space : String) : Value → Except ReadError Value
  | .map entries => .ok (.map (inNamespace space entries))
  | _ => .error .namespacedMapNeedsMap

inductive Opening where
  | list
  | vector
  | map
  | string
  | character
  | dispatch
  | atom
deriving DecidableEq, Repr

def Opening.of? (c : Char) : Option Opening :=
  if c = '(' then some .list
  else if c = '[' then some .vector
  else if c = '\x7b' then some .map
  else if c = '"' then some .string
  else if c = '\\' then some .character
  else if c = '#' then some .dispatch
  else if isAtomChar c then some .atom
  else none

mutual

def readValue (cs : List Char) : Except ReadError (Value × Shorter cs) :=
  match h : dropBlanks cs with
  | [] => .error .emptyInput
  | c :: rest =>
    have hlen : rest.length < cs.length := by
      have := length_dropBlanks_le cs
      rw [h] at this
      exact this
    match Opening.of? c with
    | none => .error .unexpectedCharacter
    | some .list => do
      let (items, ⟨r, hr⟩) ← readItems ')' rest
      pure (.list items, ⟨r, Nat.lt_trans hr hlen⟩)
    | some .vector => do
      let (items, ⟨r, hr⟩) ← readItems ']' rest
      pure (.vector items, ⟨r, Nat.lt_trans hr hlen⟩)
    | some .map => do
      let (items, ⟨r, hr⟩) ← readItems '\x7d' rest
      let entries ← mapOf items
      pure (.map entries, ⟨r, Nat.lt_trans hr hlen⟩)
    | some .string =>
      match hs : readString rest with
      | .error e => .error e
      | .ok (s, r) =>
        .ok (.string (String.ofList s), ⟨r, Nat.lt_of_le_of_lt (length_le_of_readString hs) hlen⟩)
    | some .character =>
      match hs : readCharacter (dropComment rest) with
      | .error e => .error e
      | .ok (c, r) =>
        .ok (.character c, ⟨r, Nat.lt_of_le_of_lt (Nat.le_trans (length_le_of_readCharacter hs)
          (length_dropComment_le rest)) hlen⟩)
    | some .dispatch => do
      let (v, ⟨r, hr⟩) ← readDispatch rest
      pure (v, ⟨r, Nat.lt_trans hr hlen⟩)
    | some .atom => do
      let atom := scanAtom rest
      let v ← readAtom (c :: atom.1)
      pure (v, ⟨atom.2, Nat.lt_of_le_of_lt (length_scanAtom_le rest) hlen⟩)
termination_by 3 * cs.length

/-- The value behind `#`: the one after a discarded value, a set, or a tagged value. -/
def readDispatch (cs : List Char) : Except ReadError (Value × Shorter cs) :=
  match h : dropComment cs with
  | [] => .error .unexpectedEndOfInput
  | t :: tail =>
    have htail : tail.length < cs.length := length_rest_lt h
    if t = '_' then do
      let (_, ⟨r, hr⟩) ← readValue tail
      have hr' : r.length < cs.length := Nat.lt_trans hr htail
      let (v, ⟨r', hr''⟩) ← readValue r
      pure (v, ⟨r', Nat.lt_trans hr'' hr'⟩)
    else if t = '\x7b' then do
      let (items, ⟨r, hr⟩) ← readItems '\x7d' tail
      let vs ← setOf items
      pure (.set vs, ⟨r, Nat.lt_trans hr htail⟩)
    else do
      let (tag, ⟨r, hr⟩) ← readValue (t :: tail)
      have hr' : r.length < cs.length := Nat.lt_of_lt_of_le hr htail
      match tag with
      | .symbol n => do
        let (v, ⟨r', hr''⟩) ← readValue r
        let v ← tagged n v
        pure (v, ⟨r', Nat.lt_trans hr'' hr'⟩)
      | .keyword ⟨none, space⟩ => do
        let (v, ⟨r', hr''⟩) ← readValue r
        let v ← namespaced space v
        pure (v, ⟨r', Nat.lt_trans hr'' hr'⟩)
      | _ => .error .invalidTag
termination_by 3 * cs.length + 2

def readItems (close : Char) (cs : List Char) : Except ReadError (List Value × Shorter cs) :=
  match h : dropGap cs with
  | [] => .error .unexpectedEndOfInput
  | c :: rest =>
    have hlen : rest.length < cs.length := by
      have := length_dropGap_le cs
      rwa [h] at this
    if c = close then .ok ([], ⟨rest, hlen⟩)
    else do
      let (v, ⟨r, hr⟩) ← readValue (c :: rest)
      have hr' : r.length < cs.length := Nat.lt_of_lt_of_le hr hlen
      let (vs, ⟨r', hr''⟩) ← readItems close r
      pure (v :: vs, ⟨r', Nat.lt_trans hr'' hr'⟩)
termination_by 3 * cs.length + 1

end

/-- The value at the front of a text. What follows it is not looked at. -/
def Value.read (text : String) : Except ReadError Value :=
  (readValue text.toList).map Prod.fst

end FlatTree.Edn
