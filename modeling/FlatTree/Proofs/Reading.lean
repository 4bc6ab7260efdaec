import FlatTree.Edn.Reader
import FlatTree.Proofs.Steps
import Mathlib.Data.List.TakeWhile

/-!
# Readers and what they leave

The readers without the proofs that they take something: what each makes of the first character that
is neither in a gap nor in a comment. Blanks and atoms have no character in common, so an atom ends
where its characters do.
-/

namespace FlatTree.Edn

/-! ## Readers -/

/-- The first value of a text, and what follows it. -/
def readOne (cs : List Char) : Except ReadError (Value × List Char) :=
  (readValue cs).map fun p => (p.1, p.2.1)

/-- The items up to a closing bracket, and what follows it. -/
def readMany (close : Char) (cs : List Char) : Except ReadError (List Value × List Char) :=
  (readItems close cs).map fun p => (p.1, p.2.1)

/-- The value behind `#`, and what follows it. -/
def readSharp (cs : List Char) : Except ReadError (Value × List Char) :=
  (readDispatch cs).map fun p => (p.1, p.2.1)

/-- What the first character of a value makes of the text behind it. -/
def readOpened (c : Char) (rest : List Char) : Except ReadError (Value × List Char) :=
  match Opening.of? c with
  | none => .error .unexpectedCharacter
  | some .list => (readMany ')' rest).map fun p => (.list p.1, p.2)
  | some .vector => (readMany ']' rest).map fun p => (.vector p.1, p.2)
  | some .map =>
    readMany '\x7d' rest >>= fun p => (mapOf p.1).map fun entries => (.map entries, p.2)
  | some .string => (readString rest).map fun p => (.string (String.ofList p.1), p.2)
  | some .character => (readCharacter (dropComment rest)).map fun p => (.character p.1, p.2)
  | some .dispatch => readSharp rest
  | some .atom => (readAtom (c :: (scanAtom rest).1)).map (·, (scanAtom rest).2)

/-- What a value in front makes of the one behind it: a symbol is a tag, and a keyword the namespace
of the keys of a map. -/
def underTag (tag v : Value) : Except ReadError Value :=
  match tag with
  | .symbol n => tagged n v
  | .keyword ⟨none, space⟩ => namespaced space v
  | _ => .error .invalidTag

/-- A value that may stand in front of another one. -/
def isTag : Value → Bool
  | .symbol _ => true
  | .keyword ⟨none, _⟩ => true
  | _ => false

section

variable {cs rest : List Char} {c : Char}

theorem readOne_of_nil (h : dropBlanks cs = []) : readOne cs = .error .emptyInput := by
  rw [readOne, readValue]
  split
  · rfl
  · next h' => cases h.symm.trans h'

theorem readOne_of_cons (h : dropBlanks cs = c :: rest) : readOne cs = readOpened c rest := by
  rw [readOne, readValue, readOpened]
  split
  · next h' => cases h.symm.trans h'
  · next c' rest' h' =>
    obtain ⟨rfl, rfl⟩ := List.cons.inj (h.symm.trans h')
    dsimp only
    cases Opening.of? c with
    | none => rfl
    | some o =>
      cases o with
      | list =>
        simp only [readMany]
        cases readItems ')' rest <;> rfl
      | vector =>
        simp only [readMany]
        cases readItems ']' rest <;> rfl
      | map =>
        simp only [readMany]
        cases readItems '\x7d' rest with
        | error e => rfl
        | ok p =>
          simp only [bind, Except.bind, Except.map]
          cases mapOf p.1 <;> rfl
      | string =>
        dsimp only
        split
        · next hs => exact (congrArg (Except.map _) hs).symm
        · next hs =>
          exact (congrArg (Except.map fun p => (Value.string (String.ofList p.1), p.2)) hs).symm
      | character =>
        dsimp only
        split
        · next hs => exact (congrArg (Except.map _) hs).symm
        · next hs => exact (congrArg (Except.map fun p => (Value.character p.1, p.2)) hs).symm
      | dispatch =>
        simp only [readSharp]
        cases readDispatch rest <;> rfl
      | atom =>
        simp only [bind, Except.bind]
        cases readAtom (c :: (scanAtom rest).1) <;> rfl

theorem readMany_of_nil {close : Char} (h : dropGap cs = []) :
    readMany close cs = .error .unexpectedEndOfInput := by
  rw [readMany, readItems]
  split
  · rfl
  · next h' => cases h.symm.trans h'

theorem readMany_of_cons {close : Char} (h : dropGap cs = c :: rest) : readMany close cs =
    if c = close then .ok ([], rest)
    else readOne (c :: rest) >>= fun p => (readMany close p.2).map fun q => (p.1 :: q.1, q.2) := by
  rw [readMany, readItems]
  split
  · next h' => cases h.symm.trans h'
  · next c' rest' h' =>
    obtain ⟨rfl, rfl⟩ := List.cons.inj (h.symm.trans h')
    dsimp only
    split
    · rfl
    · simp only [readOne, readMany]
      cases readValue (c :: rest) with
      | error e => rfl
      | ok p =>
        simp only [bind, Except.bind, Except.map]
        cases readItems close p.2.1 <;> rfl

theorem readSharp_of_nil (h : dropComment cs = []) :
    readSharp cs = .error .unexpectedEndOfInput := by
  rw [readSharp, readDispatch]
  split
  · rfl
  · next h' => cases h.symm.trans h'

theorem readSharp_of_cons (h : dropComment cs = c :: rest) : readSharp cs =
    if c = '_' then readOne rest >>= fun p => readOne p.2
    else if c = '\x7b' then
      readMany '\x7d' rest >>= fun p => (setOf p.1).map fun vs => (.set vs, p.2)
    else readOne (c :: rest) >>= fun p =>
      if isTag p.1 then readOne p.2 >>= fun q => (underTag p.1 q.1).map (·, q.2)
      else .error .invalidTag := by
  rw [readSharp, readDispatch]
  split
  · next h' => cases h.symm.trans h'
  · next c' rest' h' =>
    obtain ⟨rfl, rfl⟩ := List.cons.inj (h.symm.trans h')
    dsimp only
    split
    · simp only [readOne]
      cases readValue rest with
      | error e => rfl
      | ok p =>
        simp only [bind, Except.bind, Except.map]
        cases readValue p.2.1 <;> rfl
    · split
      · simp only [readMany]
        cases readItems '\x7d' rest with
        | error e => rfl
        | ok p =>
          simp only [bind, Except.bind, Except.map]
          cases setOf p.1 <;> rfl
      · simp only [readOne]
        cases readValue (c :: rest) with
        | error e => rfl
        | ok p =>
          obtain ⟨tag, r, hr⟩ := p
          simp only [bind, Except.bind, Except.map]
          cases tag with
          | symbol n =>
            cases readValue r with
            | error e => rfl
            | ok q =>
              simp only [isTag, if_true, underTag]
              cases tagged n q.1 <;> rfl
          | keyword n =>
            obtain ⟨space, base⟩ := n
            cases space with
            | none =>
              cases readValue r with
              | error e => rfl
              | ok q =>
                simp only [isTag, if_true, underTag]
                cases namespaced base q.1 <;> rfl
            | some space => rfl
          | _ => rfl

end

/-! ## Gaps and atoms -/

/-- A character of a set lies in one of its ranges. -/
theorem exists_range_of_covers {ranges : List (Nat × Nat)} {n : Nat}
    (h : CharSet.covers ranges n = true) : ∃ r ∈ ranges, r.1 ≤ n ∧ n ≤ r.2 := by
  induction ranges with
  | nil => cases h
  | cons r ranges ih =>
    rw [CharSet.covers] at h
    split at h
    · cases h
    · next hlow =>
      split at h
      · next hhigh => exact ⟨r, List.mem_cons_self, Nat.not_lt.mp hlow, hhigh⟩
      · obtain ⟨r', hmem, hr'⟩ := ih h
        exact ⟨r', List.mem_cons_of_mem r hmem, hr'⟩

/-- No letter, no digit and no sign of an atom separates. -/
theorem isAtomChar_of_isBlank {c : Char} (h : isBlank c = true) : isAtomChar c = false := by
  have hranges : (CharSet.whiteSpace.ranges.all fun r => (List.range (r.2 + 1 - r.1)).all fun k =>
      !isAtomChar (Char.ofNat (r.1 + k))) = true := by decide +kernel
  rcases (Bool.or_eq_true _ _).mp h with h | h
  · rw [beq_iff_eq.mp h]
    rfl
  · obtain ⟨r, hmem, hlow, hhigh⟩ := exists_range_of_covers h
    have hrange := List.all_eq_true.mp hranges r hmem
    have hc := List.all_eq_true.mp hrange (c.toNat - r.1) (List.mem_range.mpr (by omega))
    rwa [Nat.add_sub_cancel' hlow, Char.ofNat_toNat, Bool.not_eq_true'] at hc

theorem ne_of_isAtomChar {c d : Char} (h : isAtomChar c = true) (hd : isAtomChar d = false) :
    c ≠ d := by
  rintro rfl
  exact Bool.false_ne_true (hd.symm.trans h)

/-- A character that neither separates nor begins a comment. -/
def isSolid (c : Char) : Bool :=
  c != ';' && !isBlank c

theorem isSolid_of_isAtomChar {c : Char} (h : isAtomChar c = true) : isSolid c = true := by
  have hne : c ≠ ';' := ne_of_isAtomChar h rfl
  have hblank : isBlank c = false :=
    Bool.eq_false_iff.mpr fun hb => Bool.false_ne_true ((isAtomChar_of_isBlank hb).symm.trans h)
  rw [isSolid, bne_iff_ne.mpr hne, hblank]
  rfl

theorem ne_semicolon_of_isSolid {c : Char} (h : isSolid c = true) : c ≠ ';' :=
  bne_iff_ne.mp ((Bool.and_eq_true _ _).mp h).1

private theorem isBlank_of_isSolid {c : Char} (h : isSolid c = true) : isBlank c = false :=
  Bool.not_eq_true' _ |>.mp ((Bool.and_eq_true _ _).mp h).2

theorem dropComment_of_ne {c : Char} (h : c ≠ ';') (cs : List Char) :
    dropComment (c :: cs) = c :: cs := by
  rw [dropComment.eq_def]
  split
  · next heq => exact absurd (List.cons.inj heq).1 h
  · rfl

section

variable {cs rest : List Char} {c : Char}

private theorem dropGap_of_dropComment (h : dropComment cs = c :: rest) :
    dropGap cs = if isBlank c then dropGap rest else c :: rest := by
  rw [dropGap.eq_def cs]
  split
  · next h' => cases h.symm.trans h'
  · next h' =>
    obtain ⟨rfl, rfl⟩ := List.cons.inj (h.symm.trans h')
    rfl

private theorem dropBlanks_of_dropComment (h : dropComment cs = c :: rest) :
    dropBlanks cs = if isBlank c then dropBlanks rest
      else if c = ';' then dropBlanks (c :: rest) else c :: rest := by
  rw [dropBlanks.eq_def cs]
  split
  · next h' => cases h.symm.trans h'
  · next h' =>
    obtain ⟨rfl, rfl⟩ := List.cons.inj (h.symm.trans h')
    rfl

private theorem scanAtom_of_dropComment (h : dropComment cs = c :: rest) :
    scanAtom cs =
      if isAtomChar c then (c :: (scanAtom rest).1, (scanAtom rest).2) else ([], c :: rest) := by
  rw [scanAtom.eq_def cs]
  split
  · next h' => cases h.symm.trans h'
  · next h' =>
    obtain ⟨rfl, rfl⟩ := List.cons.inj (h.symm.trans h')
    rfl

end

theorem dropGap_of_isSolid {c : Char} (h : isSolid c = true) (cs : List Char) :
    dropGap (c :: cs) = c :: cs := by
  rw [dropGap_of_dropComment (dropComment_of_ne (ne_semicolon_of_isSolid h) cs)]
  exact if_neg (Bool.eq_false_iff.mp (isBlank_of_isSolid h))

theorem dropBlanks_of_isSolid {c : Char} (h : isSolid c = true) (cs : List Char) :
    dropBlanks (c :: cs) = c :: cs := by
  rw [dropBlanks_of_dropComment (dropComment_of_ne (ne_semicolon_of_isSolid h) cs),
    if_neg (Bool.eq_false_iff.mp (isBlank_of_isSolid h))]
  exact if_neg (ne_semicolon_of_isSolid h)

theorem dropGap_space (cs : List Char) : dropGap (' ' :: cs) = dropGap cs :=
  dropGap_of_dropComment (c := ' ') rfl

theorem dropBlanks_space (cs : List Char) : dropBlanks (' ' :: cs) = dropBlanks cs :=
  dropBlanks_of_dropComment (c := ' ') rfl

/-- What may stand behind a value: nothing that an atom could go on with, and no comment. -/
def Stops (rest : List Char) : Prop :=
  ∀ c, rest.head? = some c → c ≠ ';' ∧ isAtomChar c = false

theorem stops_nil : Stops [] := by
  intro _ h
  cases h

theorem stops_cons {c : Char} (hne : c ≠ ';') (h : isAtomChar c = false) (cs : List Char) :
    Stops (c :: cs) := by
  rintro _ ⟨⟩
  exact ⟨hne, h⟩

/-- An atom is taken up to its end. -/
theorem scanAtom_append {atom rest : List Char} (h : ∀ c ∈ atom, isAtomChar c = true)
    (hrest : Stops rest) : scanAtom (atom ++ rest) = (atom, rest) := by
  induction atom with
  | nil =>
    cases rest with
    | nil =>
      rw [List.nil_append, scanAtom]
      rfl
    | cons c cs =>
      obtain ⟨hne, hatom⟩ := hrest c rfl
      rw [List.nil_append, scanAtom_of_dropComment (dropComment_of_ne hne cs)]
      exact if_neg (Bool.eq_false_iff.mp hatom)
  | cons c atom ih =>
    obtain ⟨hc, h⟩ := List.forall_mem_cons.mp h
    have hcomment := dropComment_of_ne (ne_semicolon_of_isSolid (isSolid_of_isAtomChar hc))
      (atom ++ rest)
    rw [List.cons_append, scanAtom_of_dropComment hcomment, if_pos hc, ih h]

end FlatTree.Edn
