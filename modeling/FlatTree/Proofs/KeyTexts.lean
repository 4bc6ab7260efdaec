import FlatTree.Settings
import FlatTree.Proofs.Steps
import Mathlib.Data.List.TakeWhile

/-!
# Texts of sort keys

Which texts are lists of sort keys, said without reading them: a comma sets two keys apart, blanks
may stand around every word, and a direction comes in letters of either case. A list of keys is read
back from every text that is written so, and a text of any other form is refused.
-/

namespace FlatTree

/-! ## Pieces and words -/

theorem splitChars_eq_splitOnP (p : Char → Bool) (cs : List Char) :
    splitChars p cs = cs.splitOnP p := by
  induction cs with
  | nil => rfl
  | cons c cs ih =>
    rw [splitChars, List.splitOnP_cons_eq_if_modifyHead, ih]
    split
    · rfl
    · cases hpieces : cs.splitOnP p with
      | nil => exact absurd hpieces (List.splitOnP_ne_nil p cs)
      | cons piece pieces => rfl

/-- Blanks and nothing else. -/
def Blank (cs : List Char) : Prop :=
  ∀ c ∈ cs, CharSet.whiteSpace.has c = true

-- named here and below, since a search may find an instance that tries every character there is
instance : DecidablePred Blank :=
  List.decidableBAll _

/-- Neither blanks nor commas. -/
def Clear (cs : List Char) : Prop :=
  ∀ c ∈ cs, CharSet.whiteSpace.has c = false ∧ c ≠ ','

instance : DecidablePred Clear :=
  List.decidableBAll _

/-- A word is not empty and has no blank in it. -/
structure IsWord (cs : List Char) : Prop where
  ne_nil : cs ≠ []
  solid : ∀ c ∈ cs, CharSet.whiteSpace.has c = false

/-- What may follow a word: nothing, or a blank before anything else. -/
def SetOff (cs : List Char) : Prop :=
  ∀ c ∈ cs.head?, CharSet.whiteSpace.has c = true

theorem Blank.setOff {cs : List Char} (h : Blank cs) : SetOff cs :=
  fun c hc => h c (List.mem_of_mem_head? hc)

theorem Blank.setOff_append {cs : List Char} (h : Blank cs) (hne : cs ≠ []) (rest : List Char) :
    SetOff (cs ++ rest) := by
  intro c hc
  rw [List.head?_append_of_ne_nil cs hne] at hc
  exact h.setOff c hc

theorem wordsOf_blank_append {before : List Char} (h : Blank before) (rest : List Char) :
    wordsOf (before ++ rest) = wordsOf rest := by
  induction before with
  | nil => rfl
  | cons c before ih =>
    obtain ⟨hc, hbefore⟩ := List.forall_mem_cons.mp h
    rw [← ih hbefore, List.cons_append, wordsOf, splitChars, if_pos hc]
    rfl

theorem wordsOf_word_append {w rest : List Char} (hw : IsWord w) (h : SetOff rest) :
    wordsOf (w ++ rest) = w :: wordsOf rest := by
  simp only [wordsOf, splitChars_eq_splitOnP]
  cases rest with
  | nil =>
    rw [List.append_nil, List.splitOnP_eq_singleton hw.solid]
    simp [hw.ne_nil]
  | cons c rest =>
    have hc : CharSet.whiteSpace.has c = true := h c rfl
    rw [List.splitOnP_append_cons_of_forall_mem hw.solid c hc]
    simp [hw.ne_nil, List.splitOnP_cons_eq_if_modifyHead, hc]

/-- A text is blank, or has a first word. -/
theorem blank_or_exists_word (cs : List Char) : Blank cs ∨ ∃ before w rest,
    cs = before ++ (w ++ rest) ∧ Blank before ∧ IsWord w ∧ SetOff rest := by
  have hsplit := List.takeWhile_append_dropWhile (p := CharSet.whiteSpace.has) (l := cs)
  have hbefore : Blank (cs.takeWhile CharSet.whiteSpace.has) := fun _ => List.mem_takeWhile_imp
  have hhead := List.head?_dropWhile_not CharSet.whiteSpace.has cs
  cases htail : cs.dropWhile CharSet.whiteSpace.has with
  | nil =>
    rw [htail, List.append_nil] at hsplit
    exact .inl (hsplit ▸ hbefore)
  | cons c tail =>
    rw [htail] at hsplit hhead
    have hc : CharSet.whiteSpace.has c = false := by simpa using hhead
    have hword := List.takeWhile_append_dropWhile (p := fun c => !CharSet.whiteSpace.has c)
      (l := c :: tail)
    refine .inr ⟨_, (c :: tail).takeWhile fun c => !CharSet.whiteSpace.has c,
      (c :: tail).dropWhile fun c => !CharSet.whiteSpace.has c, ?_, hbefore, ⟨?_, ?_⟩, ?_⟩
    · rw [hword, hsplit]
    · simp [hc]
    · intro d hd
      simpa using List.mem_takeWhile_imp hd
    · intro d hd
      have hnot := List.head?_dropWhile_not (fun c => !CharSet.whiteSpace.has c) (c :: tail)
      rw [Option.mem_def.mp hd] at hnot
      simpa using hnot

theorem wordsOf_eq_nil_iff {cs : List Char} : wordsOf cs = [] ↔ Blank cs := by
  constructor
  · intro h
    rcases blank_or_exists_word cs with hblank | ⟨before, w, rest, rfl, hbefore, hw, hrest⟩
    · exact hblank
    · rw [wordsOf_blank_append hbefore, wordsOf_word_append hw hrest] at h
      cases h
  · intro h
    rw [← List.append_nil cs, wordsOf_blank_append h]
    rfl

/-- The first word stands behind blanks only, and what follows it is set off. -/
theorem wordsOf_eq_cons_iff {cs w : List Char} {ws : List (List Char)} : wordsOf cs = w :: ws ↔
    ∃ before rest, cs = before ++ (w ++ rest) ∧ Blank before ∧ IsWord w ∧ SetOff rest ∧
      wordsOf rest = ws := by
  constructor
  · intro h
    rcases blank_or_exists_word cs with hblank | ⟨before, v, rest, rfl, hbefore, hv, hrest⟩
    · rw [wordsOf_eq_nil_iff.mpr hblank] at h
      cases h
    · rw [wordsOf_blank_append hbefore, wordsOf_word_append hv hrest] at h
      obtain ⟨rfl, rfl⟩ := List.cons.inj h
      exact ⟨before, rest, rfl, hbefore, hv, hrest, rfl⟩
  · rintro ⟨before, rest, rfl, hbefore, hw, hrest, rfl⟩
    rw [wordsOf_blank_append hbefore, wordsOf_word_append hw hrest]

/-! ## Directions -/

/-- Letter by letter the same, except that a letter may be a capital. -/
def InAnyCase (word letters : List Char) : Prop :=
  List.Forall₂ (fun c letter => c = letter ∨ c = letter.toUpper) word letters

private theorem toNat_toLower_of_capital {c : Char} (h : 'A'.val ≤ c.val ∧ c.val ≤ 'Z'.val) :
    c.toLower.toNat = c.toNat + 32 := by
  have hlower : c.toLower = ⟨c.val + ('a'.val - 'A'.val), _⟩ := dif_pos h
  have hstep : ('a'.val - 'A'.val).toNat = 32 := by decide
  have hle : c.toNat ≤ 90 := UInt32.le_iff_toNat_le.mp h.2
  rw [← Char.toNat_val, hlower, UInt32.toNat_add, Char.toNat_val, hstep]
  omega

private theorem toNat_toUpper_of_small {c : Char} (h : 'a'.val ≤ c.val ∧ c.val ≤ 'z'.val) :
    c.toUpper.toNat = c.toNat - 32 := by
  have hupper : c.toUpper = ⟨c.val + ('A'.val - 'a'.val), _⟩ := dif_pos h
  -- the difference goes round: it is 32 less than all numbers of the word
  have hstep : ('A'.val - 'a'.val).toNat = 4294967264 := by decide
  have hlow : 97 ≤ c.toNat := UInt32.le_iff_toNat_le.mp h.1
  have hhigh : c.toNat ≤ 122 := UInt32.le_iff_toNat_le.mp h.2
  rw [← Char.toNat_val, hupper, UInt32.toNat_add, Char.toNat_val, hstep]
  omega

private theorem toLower_eq_iff {c letter : Char} (h : letter.isLower = true) :
    c.toLower = letter ↔ c = letter ∨ c = letter.toUpper := by
  obtain ⟨hge, hle⟩ := Bool.and_eq_true_iff.mp h
  have hsmall : 'a'.val ≤ letter.val ∧ letter.val ≤ 'z'.val :=
    ⟨of_decide_eq_true hge, of_decide_eq_true hle⟩
  have hlow : 97 ≤ letter.toNat := UInt32.le_iff_toNat_le.mp hsmall.1
  have hhigh : letter.toNat ≤ 122 := UInt32.le_iff_toNat_le.mp hsmall.2
  have hupper := toNat_toUpper_of_small hsmall
  by_cases hc : 'A'.val ≤ c.val ∧ c.val ≤ 'Z'.val
  · have hlower := toNat_toLower_of_capital hc
    have hcapital : c.toNat ≤ 90 := UInt32.le_iff_toNat_le.mp hc.2
    simp only [← Char.toNat_inj, hupper, hlower]
    omega
  · have hsame : c.toLower = c := dif_neg hc
    have hnot : ¬(65 ≤ c.toNat ∧ c.toNat ≤ 90) := fun hcapital =>
      hc ⟨UInt32.le_iff_toNat_le.mpr hcapital.1, UInt32.le_iff_toNat_le.mpr hcapital.2⟩
    rw [hsame, ← Char.toNat_inj, ← Char.toNat_inj, hupper]
    omega

theorem map_toLower_eq_iff {word letters : List Char} (h : ∀ c ∈ letters, c.isLower = true) :
    word.map Char.toLower = letters ↔ InAnyCase word letters := by
  induction letters generalizing word with
  | nil => simp [InAnyCase]
  | cons letter letters ih =>
    obtain ⟨hletter, hletters⟩ := List.forall_mem_cons.mp h
    cases word with
    | nil => simp [InAnyCase]
    | cons c word =>
      rw [List.map_cons, List.cons.injEq, toLower_eq_iff hletter, ih hletters, InAnyCase,
        InAnyCase, List.forall₂_cons]

namespace SortKey

def directionWord (descending : Bool) : List Char :=
  if descending then "desc".toList else "asc".toList

theorem isLower_directionWord (descending : Bool) :
    ∀ c ∈ directionWord descending, c.isLower = true :=
  List.all_eq_true.mp (by cases descending <;> rfl)

theorem direction?_eq_some_iff {word : List Char} {descending : Bool} :
    direction? (word.map Char.toLower) = some descending ↔
      InAnyCase word (directionWord descending) := by
  rw [← map_toLower_eq_iff (isLower_directionWord descending), direction?]
  generalize word.map Char.toLower = letters
  by_cases hasc : letters = "asc".toList
  · subst hasc
    cases descending <;> decide
  · by_cases hdesc : letters = "desc".toList
    · subst hdesc
      cases descending <;> decide
    · rw [if_neg hasc, if_neg hdesc]
      cases descending with
      | false => exact iff_of_false (by simp) hasc
      | true => exact iff_of_false (by simp) hdesc

/-- The letters of a direction are neither blanks nor commas. -/
theorem clear_of_inAnyCase {word : List Char} {descending : Bool}
    (h : InAnyCase word (directionWord descending)) : Clear word := by
  have hsmall : Clear (directionWord descending) := by cases descending <;> decide
  have hcapital : Clear ((directionWord descending).map Char.toUpper) := by
    cases descending <;> decide
  generalize directionWord descending = letters at h hsmall hcapital
  induction h with
  | nil => exact hsmall
  | cons hc _ ih =>
    obtain ⟨hletter, hletters⟩ := List.forall_mem_cons.mp hsmall
    obtain ⟨hupper, huppers⟩ := List.forall_mem_cons.mp hcapital
    refine List.forall_mem_cons.mpr ⟨?_, ih hletters huppers⟩
    rcases hc with rfl | rfl
    · exact hletter
    · exact hupper

private theorem isWord_of_inAnyCase {word : List Char} {descending : Bool}
    (h : InAnyCase word (directionWord descending)) : IsWord word where
  ne_nil := by
    rintro rfl
    cases descending <;> cases h
  solid c hc := (clear_of_inAnyCase h c hc).1

/-! ## What spells a key -/

/-- A part of a text that has a name in it and says a direction: by nothing more, or by a second
word. -/
inductive Spells (name : List Char) : Bool → List Char → Prop
  | bare {before after : List Char} : Blank before → Blank after →
      Spells name false (before ++ (name ++ after))
  | directed {descending : Bool} {before gap word after : List Char} : Blank before → Blank gap →
      gap ≠ [] → InAnyCase word (directionWord descending) → Blank after →
      Spells name descending (before ++ (name ++ (gap ++ (word ++ after))))

/-- The key that a part of a text spells, by one word or two. -/
def SpelledBy (part : List Char) (key : SortKey) : Prop :=
  ∃ name, IsWord name ∧ key.column = Column.ofName name ∧ Spells name key.descending part

theorem spells_iff {name part : List Char} {descending : Bool} (hname : IsWord name) :
    Spells name descending part ↔ wordsOf part = [name] ∧ descending = false ∨
      ∃ word, wordsOf part = [name, word] ∧ InAnyCase word (directionWord descending) := by
  constructor
  · rintro (⟨hbefore, hafter⟩ | ⟨hbefore, hgap, hne, hword, hafter⟩)
    · left
      rw [wordsOf_blank_append hbefore, wordsOf_word_append hname hafter.setOff,
        wordsOf_eq_nil_iff.mpr hafter]
      exact ⟨rfl, rfl⟩
    · right
      rw [wordsOf_blank_append hbefore, wordsOf_word_append hname (hgap.setOff_append hne _),
        wordsOf_blank_append hgap,
        wordsOf_word_append (isWord_of_inAnyCase hword) hafter.setOff,
        wordsOf_eq_nil_iff.mpr hafter]
      exact ⟨_, rfl, hword⟩
  · rintro (⟨hwords, rfl⟩ | ⟨word, hwords, hword⟩)
    · obtain ⟨before, after, rfl, hbefore, -, -, hafter⟩ := wordsOf_eq_cons_iff.mp hwords
      exact .bare hbefore (wordsOf_eq_nil_iff.mp hafter)
    · obtain ⟨before, rest, rfl, hbefore, -, hrest, hwords'⟩ := wordsOf_eq_cons_iff.mp hwords
      obtain ⟨gap, after, rfl, hgap, hw, -, hafter⟩ := wordsOf_eq_cons_iff.mp hwords'
      refine .directed hbefore hgap ?_ hword (wordsOf_eq_nil_iff.mp hafter)
      -- with no blank before it the second word would be the rest of the first
      rintro rfl
      obtain ⟨c, word, rfl⟩ := List.exists_cons_of_ne_nil hw.ne_nil
      have hc := hw.solid c List.mem_cons_self
      rw [hrest c rfl] at hc
      cases hc

theorem ofWords_eq_ok_iff {spec : String} {words : List (List Char)} {key : SortKey} :
    ofWords spec words = .ok key ↔ ∃ name, key.column = Column.ofName name ∧
      (words = [name] ∧ key.descending = false ∨
        ∃ word, words = [name, word] ∧ InAnyCase word (directionWord key.descending)) := by
  obtain ⟨column, descending⟩ := key
  rcases words with _ | ⟨name, _ | ⟨word, rest⟩⟩
  · simp [ofWords]
  · simp [ofWords, eq_comm]
  · simp only [ofWords, ← direction?_eq_some_iff]
    cases hdirection : direction? (word.map Char.toLower) with
    | none => simp [hdirection]
    | some d => cases rest <;> simp [hdirection, eq_comm]

/-- The words of a part spell a key just if the part does. -/
theorem ofWords_wordsOf_eq_ok_iff {spec : String} {part : List Char} {key : SortKey} :
    ofWords spec (wordsOf part) = .ok key ↔ SpelledBy part key := by
  rw [ofWords_eq_ok_iff]
  constructor
  · rintro ⟨name, hcolumn, hwords⟩
    have hfirst : ∃ ws, wordsOf part = name :: ws := by
      rcases hwords with ⟨hone, -⟩ | ⟨word, htwo, -⟩
      · exact ⟨_, hone⟩
      · exact ⟨_, htwo⟩
    obtain ⟨ws, hws⟩ := hfirst
    obtain ⟨-, -, -, -, hname, -⟩ := wordsOf_eq_cons_iff.mp hws
    exact ⟨name, hname, hcolumn, (spells_iff hname).mpr hwords⟩
  · rintro ⟨name, hname, hcolumn, hspells⟩
    exact ⟨name, hcolumn, (spells_iff hname).mp hspells⟩

/-- A text spells keys if its parts, which commas set apart, spell one key each. -/
def Spelled (text : String) (keys : List SortKey) : Prop :=
  List.Forall₂ SpelledBy (text.toList.splitOn ',') keys

theorem parse_eq_ok_iff {text : String} {keys : List SortKey} :
    parse text = .ok keys ↔ Spelled text keys := by
  have hparts : splitChars (· = ',') text.toList = text.toList.splitOn ',' := by
    rw [splitChars_eq_splitOnP, List.splitOn_eq_splitOnP]
    rfl
  rw [parse, mapM_eq_ok_iff, List.forall₂_map_left_iff, hparts, Spelled]
  simp only [ofWords_wordsOf_eq_ok_iff]

end SortKey

/-! ## How keys are written -/

/-- What stands for a column in a text. The colon keeps an attribute apart from a column of the same
name. -/
def Column.written : Column → String
  | .left => "left"
  | .right => "right"
  | .depth => "depth"
  | .id => "id"
  | .attribute name => ":" ++ name

/-- Columns that a text can name: an attribute has neither blanks nor commas in its name, and no
colon in front. -/
def Column.Writable : Column → Prop
  | .attribute name => name.toList.head? ≠ some ':' ∧ Clear name.toList
  | _ => True

instance : DecidablePred Column.Writable
  | .left | .right | .depth | .id => inferInstanceAs (Decidable True)
  | .attribute name =>
    inferInstanceAs (Decidable (name.toList.head? ≠ some ':' ∧ Clear name.toList))

namespace Column

theorem toList_written_attribute (name : String) :
    (written (.attribute name)).toList = ':' :: name.toList :=
  String.toList_append

private theorem clear_written {column : Column} (h : column.Writable) :
    Clear column.written.toList := by
  cases column with
  | «attribute» name =>
    rw [toList_written_attribute]
    exact List.forall_mem_cons.mpr ⟨by decide, h.2⟩
  | _ => decide

private theorem isWord_written {column : Column} (h : column.Writable) :
    IsWord column.written.toList where
  ne_nil := by
    cases column with
    | «attribute» name =>
      rw [toList_written_attribute]
      exact List.cons_ne_nil _ _
    | _ => decide
  solid c hc := (clear_written h c hc).1

/-- A colon in front makes any name that of an attribute. -/
theorem ofName_colon (cs : List Char) :
    ofName (':' :: cs) = .attribute (String.ofList (cs.dropWhile (· = ':'))) := by
  have hne (word : String) (h : word.toList.head? ≠ some ':') : ':' :: cs ≠ word.toList :=
    fun heq => h (heq ▸ rfl)
  have hdrop : (':' :: cs).dropWhile (· = ':') = cs.dropWhile (· = ':') :=
    List.dropWhile_cons_of_pos (decide_eq_true rfl)
  simp only [ofName, hne "left" (by decide), hne "right" (by decide), hne "depth" (by decide),
    hne "id" (by decide), if_false, hdrop]

theorem ofName_written {column : Column} (h : column.Writable) :
    ofName column.written.toList = column := by
  cases column with
  | «attribute» name =>
    have hdrop : name.toList.dropWhile (· = ':') = name.toList := by
      cases hname : name.toList with
      | nil => rfl
      | cons c cs =>
        have hc : c ≠ ':' := fun hc => h.1 (by rw [hname, hc]; rfl)
        rw [List.dropWhile_cons_of_neg (by simpa using hc)]
    rw [toList_written_attribute, ofName_colon, hdrop, String.ofList_toList]
  | _ => decide

end Column

namespace SortKey

/-- A text in which keys are written, with commas between. -/
def Written (keys : List SortKey) (text : String) : Prop :=
  ∃ parts, text.toList = [','].intercalate parts ∧
    List.Forall₂ (fun key part => Spells key.column.written.toList key.descending part) keys parts

theorem comma_notMem_of_blank {cs : List Char} (h : Blank cs) : ',' ∉ cs := by
  intro hmem
  have hcomma := h ',' hmem
  exact absurd hcomma (by decide)

private theorem comma_notMem_of_spells {name part : List Char} {descending : Bool}
    (hname : ',' ∉ name) (h : Spells name descending part) : ',' ∉ part := by
  cases h with
  | bare hbefore hafter =>
    simp [comma_notMem_of_blank hbefore, hname, comma_notMem_of_blank hafter]
  | directed hbefore hgap _ hword hafter =>
    have hword' : ',' ∉ _ := fun hmem => (clear_of_inAnyCase hword ',' hmem).2 rfl
    simp [comma_notMem_of_blank hbefore, hname, comma_notMem_of_blank hgap, hword',
      comma_notMem_of_blank hafter]

/-- What is written spells the keys. -/
theorem Written.spelled {keys : List SortKey} {text : String} (h : Written keys text)
    (hne : keys ≠ []) (hkeys : ∀ key ∈ keys, key.column.Writable) : Spelled text keys := by
  obtain ⟨parts, htext, hparts⟩ := h
  have hne' : parts ≠ [] := by
    rintro rfl
    cases hparts
    exact hne rfl
  have hparts' : List.Forall₂ (fun part key => ',' ∉ part ∧ SpelledBy part key) parts keys := by
    clear htext hne hne'
    induction hparts with
    | nil => exact .nil
    | cons hpart _ ih =>
      obtain ⟨hkey, hkeys⟩ := List.forall_mem_cons.mp hkeys
      have hcomma := fun hmem => (Column.clear_written hkey ',' hmem).2 rfl
      exact .cons ⟨comma_notMem_of_spells hcomma hpart, _, Column.isWord_written hkey,
        (Column.ofName_written hkey).symm, hpart⟩ (ih hkeys)
  obtain ⟨hcomma, hspelled⟩ := (List.forall₂_and_left parts keys).mp hparts'
  rwa [Spelled, htext, List.splitOn_intercalate _ hcomma hne']

end SortKey

namespace Settings

open SortKey

theorem orderOfText_eq_ok_iff {text : String} {keys : List SortKey} :
    orderOfText text = .ok keys ↔ Spelled text keys := by
  rw [← parse_eq_ok_iff, orderOfText]
  cases parse text <;> simp

/-- The keys of a text are refused in one way only. -/
theorem orderOfText_eq_error_iff {text : String} :
    (∃ e, orderOfText text = .error (.invalid "order-by" (.sortKeys e))) ↔
      ¬∃ keys, orderOfText text = .ok keys := by
  rw [orderOfText]
  cases parse text <;> simp

/-- Keys that are written in any way are read back, and a text is read as keys only if it has one or
two words for each, the second one a direction. Every other text is refused. -/
theorem written_orders_read_back :
    (∀ (keys : List SortKey) (text : String), keys ≠ [] → (∀ key ∈ keys, key.column.Writable) →
      Written keys text → orderOfText text = .ok keys) ∧
    (∀ (text : String) (keys : List SortKey),
      orderOfText text = .ok keys ↔ Spelled text keys) ∧
    ∀ text : String, (∃ e, orderOfText text = .error (.invalid "order-by" (.sortKeys e))) ↔
      ¬∃ keys, Spelled text keys := by
  refine ⟨fun keys text hne hkeys h => ?_, fun text keys => orderOfText_eq_ok_iff, fun text => ?_⟩
  · exact orderOfText_eq_ok_iff.mpr (h.spelled hne hkeys)
  · simp only [orderOfText_eq_error_iff, orderOfText_eq_ok_iff]

/-- An attribute called like a column, a direction in letters of both cases behind a no-break space,
and a name with a colon inside. -/
theorem written_orders_read_back_mixed :
    let keys : List SortKey :=
      [⟨.attribute "left", true⟩, ⟨.depth, false⟩, ⟨.attribute "a:b", false⟩]
    let text := "\u2003:left\u00a0DeSC ,depth,\t:a:b\n aSc"
    keys ≠ [] ∧ (∀ key ∈ keys, key.column.Writable) ∧ Written keys text ∧
      orderOfText text = .ok keys := by
  intro keys text
  have hne : keys ≠ [] := List.cons_ne_nil _ _
  have hkeys : ∀ key ∈ keys, key.column.Writable := by decide
  have hdesc : InAnyCase "DeSC".toList (directionWord true) :=
    (map_toLower_eq_iff (isLower_directionWord true)).mp (by decide)
  have hasc : InAnyCase "aSc".toList (directionWord false) :=
    (map_toLower_eq_iff (isLower_directionWord false)).mp (by decide)
  have hblank : ∀ cs ∈ [[], [' '], ['\t'], ['\u2003'], ['\u00a0'], ['\n', ' ']], Blank cs := by
    decide
  simp only [List.forall_mem_cons] at hblank
  obtain ⟨hnone, hspace, htab, hwide, hfixed, hline, -⟩ := hblank
  have hwritten : Written keys text := by
    refine ⟨_, ?_, .cons (.directed hwide hfixed (List.cons_ne_nil _ _) hdesc hspace) (.cons
      (.bare hnone hnone) (.cons (.directed htab hline (List.cons_ne_nil _ _) hasc hnone) .nil))⟩
    decide
  exact ⟨hne, hkeys, hwritten, written_orders_read_back.1 keys text hne hkeys hwritten⟩

end Settings

end FlatTree
