import FlatTree.Proofs.KeywordMaps
import FlatTree.Proofs.Reading

/-!
# Reading what was written

What was written for a value is read up to its end, whatever stands behind it, so long as that does
not begin like the rest of an atom or like a comment; and what is read in its place depends on the
value alone. Vectors and maps are then read item by item.
-/

namespace FlatTree.Edn

/-! ## First characters -/

theorem isSolid_of_opening {c : Char} (h : (Opening.of? c).isSome = true) :
    isSolid c = true ∧ c ≠ ']' ∧ c ≠ '\x7d' := by
  by_cases hatom : isAtomChar c = true
  · exact ⟨isSolid_of_isAtomChar hatom, ne_of_isAtomChar hatom rfl, ne_of_isAtomChar hatom rfl⟩
  · rw [Opening.of?] at h
    split_ifs at h with h1 h2 h3 h4 h5 h6
    · exact h1 ▸ by decide
    · exact h2 ▸ by decide
    · exact h3 ▸ by decide
    · exact h4 ▸ by decide
    · exact h5 ▸ by decide
    · exact h6 ▸ by decide
    · cases h

theorem opening_of_isAtomChar {c : Char} (h : isAtomChar c = true) :
    Opening.of? c = some .atom := by
  have hne : ∀ {d : Char}, isAtomChar d = false → c ≠ d := ne_of_isAtomChar h
  rw [Opening.of?, if_neg (hne rfl), if_neg (hne rfl), if_neg (hne rfl), if_neg (hne rfl),
    if_neg (hne rfl), if_neg (hne rfl), if_pos h]

/-- A symbol that may be written in front of a value: its text is an atom of its own, and does not
ask to discard what follows. -/
structure Name.IsTag (n : Name) : Prop where
  ne_nil : n.qualified.toList ≠ []
  keeps : n.qualified.toList.head? ≠ some '_'
  atom : ∀ c ∈ n.qualified.toList, isAtomChar c = true
  read : readAtom n.qualified.toList = .ok (.symbol n)

namespace Value

section

variable (n : Name) (v w : Value) (vs : List Value) (e : Value × Value) (es : List (Value × Value))

theorem chars_string (s : String) : (string s).chars = '"' :: (s.toList.flatMap escaped ++ ['"']) :=
  rfl

theorem chars_symbol : (symbol n).chars = n.qualified.toList := rfl

theorem chars_keyword : (keyword n).chars = ':' :: n.qualified.toList := rfl

theorem chars_integer (i : Int64) : (integer i).chars = (toString i.toInt).toList := rfl

theorem chars_vector : (vector vs).chars = '[' :: (itemsChars vs ++ [']']) := rfl

theorem chars_map : (map es).chars = '\x7b' :: (entriesChars es ++ ['\x7d']) := rfl

theorem chars_instant (t : Instant) : (instant t).chars = "#inst ".toList ++ quotedChars t.text :=
  rfl

theorem chars_uuid (u : Uuid) : (uuid u).chars = "#uuid ".toList ++ quotedChars u.text := rfl

theorem chars_tagged : (tagged n v).chars = '#' :: (n.qualified.toList ++ ' ' :: v.chars) := rfl

theorem itemsChars_singleton : itemsChars [v] = v.chars := rfl

theorem itemsChars_cons_cons :
    itemsChars (v :: w :: vs) = v.chars ++ ' ' :: itemsChars (w :: vs) := rfl

private theorem entriesChars_cons_cons (f : Value × Value) :
    entriesChars (e :: f :: es) = e.1.chars ++ ' ' :: e.2.chars ++ ' ' :: entriesChars (f :: es) :=
  rfl

end

/-- What is read where a value was written. -/
def reread (v : Value) : Except ReadError Value :=
  (readOne v.chars).map Prod.fst

/-- The text of a value begins as values do and is read up to its end, whatever stands behind it. -/
structure Delimited (v : Value) : Prop where
  opens : ∃ c cs, v.chars = c :: cs ∧ (Opening.of? c).isSome = true
  ends : ∀ rest, Stops rest → readOne (v.chars ++ rest) = v.reread.map (·, rest)

/-- A value is delimited if what its first character opens is. -/
theorem delimited_of_opened {v : Value} {r : Except ReadError Value} {c : Char} {cs : List Char}
    (hchars : v.chars = c :: cs) (hopen : (Opening.of? c).isSome = true)
    (h : ∀ rest, Stops rest → readOpened c (cs ++ rest) = r.map (·, rest)) :
    v.Delimited ∧ v.reread = r := by
  have hread : ∀ rest, Stops rest → readOne (v.chars ++ rest) = r.map (·, rest) := by
    intro rest hrest
    have hsolid := (isSolid_of_opening hopen).1
    rw [hchars, List.cons_append, readOne_of_cons (dropBlanks_of_isSolid hsolid (cs ++ rest)),
      h rest hrest]
  have hreread : v.reread = r := by
    have hall := hread [] stops_nil
    rw [List.append_nil] at hall
    rw [reread, hall]
    cases r <;> rfl
  exact ⟨⟨⟨c, cs, hchars, hopen⟩, hreread.symm ▸ hread⟩, hreread⟩

/-- Of an atom the whole text counts. -/
theorem reread_of_atom {v : Value} (hne : v.chars ≠ []) (h : ∀ c ∈ v.chars, isAtomChar c = true) :
    v.Delimited ∧ v.reread = readAtom v.chars := by
  cases hchars : v.chars with
  | nil => exact absurd hchars hne
  | cons c cs =>
    rw [hchars] at h
    obtain ⟨hc, hcs⟩ := List.forall_mem_cons.mp h
    have hopen := opening_of_isAtomChar hc
    refine delimited_of_opened hchars (hopen ▸ rfl) fun rest hrest => ?_
    rw [readOpened, hopen, scanAtom_append hcs hrest]

/-! ### Texts -/

private theorem readString_cons {c : Char} (hquote : c ≠ '"') (hbackslash : c ≠ '\\')
    (cs : List Char) :
    readString (c :: cs) = (readString cs).map fun p => (c :: p.1, p.2) := by
  rw [readString]
  · exact hquote
  all_goals intros
  all_goals exact hbackslash (by assumption)

/-- What stands between the quotes is read up to the closing one. -/
theorem readString_escaped (s rest : List Char) :
    readString (s.flatMap escaped ++ '"' :: rest) = .ok (s, rest) := by
  induction s with
  | nil => rfl
  | cons c s ih =>
    rw [List.flatMap_cons, List.append_assoc, escaped.eq_def]
    split
    all_goals simp only [List.cons_append, List.nil_append]
    · rw [readString, ih]
      rfl
    · rw [readString, ih]
      rfl
    · rw [readString, ih]
      rfl
    · rw [readString, ih]
      rfl
    · rw [readString, ih]
      rfl
    · next hbackslash hquote =>
      rw [readString_cons hquote hbackslash, ih]
      rfl

theorem reread_string (s : String) :
    (Value.string s).Delimited ∧ (Value.string s).reread = .ok (.string s) := by
  refine delimited_of_opened (chars_string s) rfl fun rest _ => ?_
  have hquote : Opening.of? '"' = some .string := rfl
  rw [readOpened, hquote, List.append_assoc, List.singleton_append, readString_escaped]
  exact congrArg (fun s => Except.ok (Value.string s, rest)) (String.ofList_toList)

/-! ### Tags -/

private theorem readOne_space (cs : List Char) : readOne (' ' :: cs) = readOne cs := by
  have hblanks := dropBlanks_space cs
  cases h : dropBlanks cs with
  | nil => rw [readOne_of_nil (hblanks.trans h), readOne_of_nil h]
  | cons c rest => rw [readOne_of_cons (hblanks.trans h), readOne_of_cons h]

/-- Behind a tag the value is read that was written there. -/
theorem reread_of_tag {n : Name} (hn : n.IsTag) {v w : Value} (hv : v.Delimited)
    (hread : v.reread = .ok v) (hw : w.chars = '#' :: (n.qualified.toList ++ ' ' :: v.chars)) :
    w.Delimited ∧ w.reread = Edn.tagged n v := by
  have hsharp : Opening.of? '#' = some .dispatch := rfl
  refine delimited_of_opened hw rfl fun rest hrest => ?_
  have hspace : Stops (' ' :: (v.chars ++ rest)) := stops_cons (by decide) rfl _
  obtain ⟨hdelimited, hreread⟩ := reread_of_atom (v := .symbol n) hn.ne_nil hn.atom
  have htag : readOne (n.qualified.toList ++ ' ' :: (v.chars ++ rest)) =
      .ok (.symbol n, ' ' :: (v.chars ++ rest)) := by
    refine (hdelimited.ends _ hspace).trans ?_
    rw [hreread, chars_symbol, hn.read]
    rfl
  rw [readOpened, hsharp, List.append_assoc, List.cons_append]
  obtain ⟨hne, hkeeps, hatom, -⟩ := hn
  cases hname : n.qualified.toList with
  | nil => exact absurd hname hne
  | cons c cs =>
    rw [hname] at htag hkeeps hatom
    have hc := hatom c List.mem_cons_self
    have hbrace : c ≠ '\x7b' := ne_of_isAtomChar hc rfl
    have hsolid := isSolid_of_isAtomChar hc
    rw [List.cons_append] at htag ⊢
    dsimp only
    rw [readSharp_of_cons (dropComment_of_ne (ne_semicolon_of_isSolid hsolid) _),
      if_neg fun heq => hkeeps (congrArg some heq), if_neg hbrace, htag]
    simp only [bind, Except.bind, isTag, if_true, readOne_space, hv.ends rest hrest, hread, underTag]
    rfl

/-! ### Vectors and maps -/

private theorem readMany_space (close : Char) (cs : List Char) :
    readMany close (' ' :: cs) = readMany close cs := by
  have hgap := dropGap_space cs
  cases h : dropGap cs with
  | nil => rw [readMany_of_nil (hgap.trans h), readMany_of_nil h]
  | cons c rest => rw [readMany_of_cons (hgap.trans h), readMany_of_cons h]

/-- One item is taken in front of the others. -/
theorem readMany_append {v : Value} (hv : v.Delimited) {close : Char}
    (hclose : close = ']' ∨ close = '\x7d') {rest : List Char} (hrest : Stops rest) :
    readMany close (v.chars ++ rest) =
      v.reread >>= fun w => (readMany close rest).map fun q => (w :: q.1, q.2) := by
  have hends := hv.ends rest hrest
  obtain ⟨c, cs, hchars, hopen⟩ := hv.opens
  obtain ⟨hsolid, hbracket, hbrace⟩ := isSolid_of_opening hopen
  have hne : c ≠ close := by
    rcases hclose with rfl | rfl
    · exact hbracket
    · exact hbrace
  rw [hchars, List.cons_append] at hends ⊢
  rw [readMany_of_cons (dropGap_of_isSolid hsolid _), if_neg hne, hends]
  cases v.reread <;> rfl

private theorem readMany_close {close : Char} (hclose : close = ']' ∨ close = '\x7d')
    (rest : List Char) :
    readMany close (close :: rest) = .ok ([], rest) := by
  have hsolid : isSolid close = true := by
    rcases hclose with rfl | rfl <;> rfl
  rw [readMany_of_cons (dropGap_of_isSolid hsolid rest), if_pos rfl]

/-- Items are read one by one, up to the closing bracket. -/
theorem readMany_itemsChars {vs : List Value} (h : ∀ v ∈ vs, v.Delimited) {close : Char}
    (hclose : close = ']' ∨ close = '\x7d') (rest : List Char) :
    readMany close (itemsChars vs ++ close :: rest) = (vs.mapM reread).map (·, rest) := by
  have hstop : Stops (close :: rest) := by
    rcases hclose with rfl | rfl <;> exact stops_cons (by decide) rfl _
  induction vs with
  | nil => exact readMany_close hclose rest
  | cons v vs ih =>
    obtain ⟨hv, hvs⟩ := List.forall_mem_cons.mp h
    have htail := ih hvs
    rw [List.mapM_cons]
    cases vs with
    | nil =>
      rw [itemsChars_singleton, readMany_append hv hclose hstop, readMany_close hclose]
      cases v.reread <;> rfl
    | cons w vs =>
      have hspace : Stops (' ' :: (itemsChars (w :: vs) ++ close :: rest)) :=
        stops_cons (by decide) rfl _
      rw [itemsChars_cons_cons, List.append_assoc, List.cons_append,
        readMany_append hv hclose hspace, readMany_space, htail]
      cases v.reread with
      | error e => rfl
      | ok v' => cases (w :: vs).mapM reread <;> rfl

theorem reread_vector {items : List Value} (h : ∀ v ∈ items, v.Delimited) :
    (Value.vector items).Delimited ∧
      (Value.vector items).reread = (items.mapM reread).map .vector := by
  have hbracket : Opening.of? '[' = some .vector := rfl
  refine delimited_of_opened (chars_vector items) rfl fun rest _ => ?_
  rw [readOpened, hbracket, List.append_assoc, List.singleton_append,
    readMany_itemsChars h (.inl rfl)]
  cases items.mapM reread <;> rfl

/-- The keys and values of a map in turn. -/
def inTurn (entries : List (Value × Value)) : List Value :=
  entries.flatMap fun e => [e.1, e.2]

theorem entriesChars_eq (entries : List (Value × Value)) :
    entriesChars entries = itemsChars (inTurn entries) := by
  induction entries with
  | nil => rfl
  | cons e entries ih =>
    cases entries with
    | nil => rfl
    | cons f entries =>
      have hturn : inTurn (e :: f :: entries) = e.1 :: e.2 :: f.1 :: f.2 :: inTurn entries := rfl
      have hrest : inTurn (f :: entries) = f.1 :: f.2 :: inTurn entries := rfl
      rw [entriesChars_cons_cons, ih, hturn, hrest, itemsChars_cons_cons e.1,
        itemsChars_cons_cons e.2, List.append_assoc, List.cons_append]

theorem pairs?_inTurn (entries : List (Value × Value)) :
    pairs? (inTurn entries) = some entries := by
  induction entries with
  | nil => rfl
  | cons e entries ih => exact congrArg (Option.map _) ih

theorem reread_map {entries : List (Value × Value)}
    (h : ∀ e ∈ entries, e.1.Delimited ∧ e.2.Delimited) :
    (Value.map entries).Delimited ∧ (Value.map entries).reread =
      (inTurn entries).mapM reread >>= fun items => (mapOf items).map .map := by
  have hbrace : Opening.of? '\x7b' = some .map := rfl
  have hchars : (Value.map entries).chars = '\x7b' :: (itemsChars (inTurn entries) ++ ['\x7d']) := by
    rw [chars_map, entriesChars_eq]
  have hitems : ∀ v ∈ inTurn entries, v.Delimited := by
    intro v hv
    obtain ⟨e, he, hmem⟩ := List.mem_flatMap.mp hv
    simp only [List.mem_cons, List.not_mem_nil, or_false] at hmem
    rcases hmem with rfl | rfl
    · exact (h e he).1
    · exact (h e he).2
  refine delimited_of_opened hchars rfl fun rest _ => ?_
  rw [readOpened, hbrace, List.append_assoc, List.singleton_append,
    readMany_itemsChars hitems (.inr rfl)]
  cases (inTurn entries).mapM reread with
  | error e => rfl
  | ok items =>
    simp only [bind, Except.bind, Except.map]
    cases mapOf items <;> rfl

/-! ### Values that were renewed -/

/-- A value after it was written and read, if it can be read. -/
def renewed (v : Value) : Value :=
  match v.reread with
  | .ok w => w
  | .error _ => v

theorem renewed_of_reread {v w : Value} (h : v.reread = .ok w) : v.renewed = w := by
  rw [renewed, h]

theorem reread_eq_ok_iff {v w : Value} :
    v.reread = .ok w ↔ v.reread = .ok v.renewed ∧ w = v.renewed := by
  constructor
  · intro h
    rw [renewed_of_reread h]
    exact ⟨h, rfl⟩
  · rintro ⟨h, rfl⟩
    exact h

theorem mapM_reread_eq_ok_iff {vs ws : List Value} : vs.mapM reread = .ok ws ↔
    (∀ v ∈ vs, v.reread = .ok v.renewed) ∧ ws = vs.map renewed := by
  rw [mapM_eq_ok_iff]
  induction vs generalizing ws with
  | nil => simp
  | cons v vs ih =>
    rw [List.forall₂_cons_left_iff, List.forall_mem_cons, List.map_cons]
    constructor
    · rintro ⟨w, ws, hv, hvs, rfl⟩
      obtain ⟨hall, rfl⟩ := ih.mp hvs
      obtain ⟨hv, rfl⟩ := reread_eq_ok_iff.mp hv
      exact ⟨⟨hv, hall⟩, rfl⟩
    · rintro ⟨⟨hv, hall⟩, rfl⟩
      exact ⟨_, _, hv, ih.mpr ⟨hall, rfl⟩, rfl⟩

/-- A vector can be read if each of its items can. -/
theorem reread_vector_eq_ok_iff {items : List Value} (h : ∀ v ∈ items, v.Delimited) {w : Value} :
    (Value.vector items).reread = .ok w ↔
      (∀ v ∈ items, v.reread = .ok v.renewed) ∧ w = .vector (items.map renewed) := by
  rw [(reread_vector h).2, map_eq_ok_iff]
  constructor
  · rintro ⟨ws, hws, rfl⟩
    obtain ⟨hall, rfl⟩ := mapM_reread_eq_ok_iff.mp hws
    exact ⟨hall, rfl⟩
  · rintro ⟨hall, rfl⟩
    exact ⟨_, mapM_reread_eq_ok_iff.mpr ⟨hall, rfl⟩, rfl⟩

/-- Entries whose keys come in order are taken for a map as they are. -/
theorem mapOf_inTurn {entries : List (Value × Value)}
    (h : entries.Pairwise fun a b => compare b.1 a.1 = .gt) :
    mapOf (inTurn entries) = .ok entries := by
  have hlast : ∀ (k v : Value) (es : List (Value × Value)), (∀ e ∈ es, compare k e.1 = .gt) →
      Entries.get? k es = none ∧ Entries.put k v es = es ++ [(k, v)] := by
    intro k v es hes
    induction es with
    | nil => exact ⟨rfl, rfl⟩
    | cons e es ih =>
      obtain ⟨he, hes⟩ := List.forall_mem_cons.mp hes
      obtain ⟨hget, hput⟩ := ih hes
      constructor
      · rw [Entries.get?, he, hget]
        rfl
      · rw [Entries.put, he, hput]
        rfl
  have hgeneral : ∀ before, (before ++ entries).Pairwise (fun a b => compare b.1 a.1 = .gt) →
      entries.foldlM (fun es (p : Value × Value) =>
        if (Entries.get? p.1 es).isSome then Except.error ReadError.duplicateKey
        else .ok (Entries.put p.1 p.2 es)) before = .ok (before ++ entries) := by
    clear h
    induction entries with
    | nil => exact fun before _ => (List.append_nil before).symm ▸ rfl
    | cons e entries ih =>
      intro before h
      obtain ⟨hget, hput⟩ := hlast e.1 e.2 before fun d hd =>
        (List.pairwise_append.mp h).2.2 d hd e List.mem_cons_self
      have hmove : before ++ e :: entries = before ++ [e] ++ entries :=
        List.append_cons before e entries
      rw [hmove] at h ⊢
      rw [List.foldlM_cons, hget, hput]
      exact ih (before ++ [e]) h
  rw [mapOf, pairs?_inTurn]
  exact hgeneral [] h

/-- A map whose keys are read back as they are, and come in order, can be read if each of its values
can. -/
theorem reread_map_eq_ok_iff {entries : List (Value × Value)}
    (hdelimited : ∀ e ∈ entries, e.1.Delimited ∧ e.2.Delimited)
    (hkeys : ∀ e ∈ entries, e.1.reread = .ok e.1.renewed → e.1.renewed = e.1)
    (hsorted : entries.Pairwise fun a b => compare b.1 a.1 = .gt) {w : Value} :
    (Value.map entries).reread = .ok w ↔
      (∀ e ∈ entries, e.1.reread = .ok e.1.renewed ∧ e.2.reread = .ok e.2.renewed) ∧
        w = .map (entries.map fun e => (e.1, e.2.renewed)) := by
  have hturn : (∀ v ∈ inTurn entries, v.reread = .ok v.renewed) ↔
      ∀ e ∈ entries, e.1.reread = .ok e.1.renewed ∧ e.2.reread = .ok e.2.renewed := by
    rw [inTurn, List.forall_mem_flatMap]
    exact forall₂_congr fun e _ => by
      rw [List.forall_mem_cons, List.forall_mem_singleton]
  have hrenewed : (∀ e ∈ entries, e.1.reread = .ok e.1.renewed) →
      (inTurn entries).map renewed = inTurn (entries.map fun e => (e.1, e.2.renewed)) := by
    intro hall
    rw [inTurn, inTurn, List.map_flatMap, List.flatMap_map]
    apply List.flatMap_congr
    intro e he
    rw [List.map_cons, List.map_singleton, hkeys e he (hall e he)]
  have hmap : mapOf (inTurn (entries.map fun e => (e.1, e.2.renewed))) =
      .ok (entries.map fun e => (e.1, e.2.renewed)) :=
    mapOf_inTurn (List.pairwise_map.mpr hsorted)
  rw [(reread_map hdelimited).2, bind_eq_ok_iff]
  constructor
  · rintro ⟨items, hitems, hw⟩
    obtain ⟨hall, rfl⟩ := mapM_reread_eq_ok_iff.mp hitems
    have hentries := hturn.mp hall
    rw [hrenewed fun e he => (hentries e he).1, hmap] at hw
    cases hw
    exact ⟨hentries, rfl⟩
  · rintro ⟨hentries, rfl⟩
    refine ⟨_, mapM_reread_eq_ok_iff.mpr ⟨hturn.mpr hentries, rfl⟩, ?_⟩
    rw [hrenewed fun e he => (hentries e he).1, hmap]
    rfl

end Value

end FlatTree.Edn
