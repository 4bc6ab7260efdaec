import FlatTree.Proofs.FoldedNames
import FlatTree.Proofs.KeyVectors

/-!
# The schema of settings

Which values are settings, and what they set, said field by field: the keys a map may have, the
values each may hold, and the default of one that is left out. Settings are read from the values
that follow the schema and from no others, but for one field: a policy for imports is told by the
bare name of a keyword, so that a keyword of any namespace is taken for one.
-/

namespace FlatTree

open Edn

namespace Edn.Name

/-- A name is a word if it is that word outside any namespace. -/
def Is (n : Name) (word : String) : Prop :=
  n = plain word

/-- A name ends in a word, whether inside a namespace or not. -/
def EndsIn (n : Name) (word : String) : Prop :=
  n.base = word

/-- A text without a slash is the text of one name only. -/
theorem qualified_eq_iff {n : Name} {word : String} (h : '/' ∉ word.toList) :
    n.qualified = word ↔ n = plain word := by
  constructor
  · rintro rfl
    obtain ⟨_ | space, base⟩ := n
    · rfl
    · exact absurd (by simp [qualified]) h
  · rintro rfl
    rfl

end Edn.Name

namespace Settings

/-! ## The schema -/

/-- What a map has under a keyword outside any namespace. A map that was read has no two entries
with one key; else the last one counts. -/
def under? (name : String) (entries : List (Value × Value)) : Option Value :=
  entries.reverse.findSome? fun e =>
    match e.1 with
    | .keyword n => if n = .plain name then some e.2 else none
    | _ => none

/-- A map has no keys but some keywords outside any namespace. -/
def KeysAmong (known : List String) (entries : List (Value × Value)) : Prop :=
  ∀ e ∈ entries, ∃ name ∈ known, e.1 = .keyword (.plain name)

/-- A field has its default if its entry is left out, and else what the value of the entry says. -/
def Field {α : Type} (rule : Value → α → Prop) (default : α) : Option Value → α → Prop
  | none, a => a = default
  | some v, a => rule v a

/-- An order is said by a text of keys. -/
def OrderValue (v : Value) (keys : List SortKey) : Prop :=
  ∃ text, OrderText v text ∧ orderOfText text = .ok keys

/-- A sentinel is nothing, or an integer of 64 bits that is not negative. -/
inductive SentinelValue : Value → Option Nat → Prop
  | nil : SentinelValue .nil none
  | integer {i : Int64} {n : Nat} : i.toInt = n → SentinelValue (.integer i) (some n)

/-- A policy is a keyword that is called like one. -/
inductive PolicyValue (called : Name → String → Prop) : Value → Dangling → Prop
  | drop {n : Name} : called n "drop" → PolicyValue called (.keyword n) .drop
  | fail {n : Name} : called n "fail" → PolicyValue called (.keyword n) .fail

inductive ImportsValue (called : Name → String → Prop) : Value → ImportSettings → Prop
  | map {entries : List (Value × Value)} {imports : ImportSettings} :
      KeysAmong ["root-sentinel", "dangling"] entries →
      Field SentinelValue ImportSettings.default.sentinel
        (under? "root-sentinel" entries) imports.sentinel →
      Field (PolicyValue called) ImportSettings.default.dangling
        (under? "dangling" entries) imports.dangling →
      ImportsValue called (.map entries) imports

/-- The settings that a value stands for, where `called` tells which keywords are policies. -/
inductive Follows (called : Name → String → Prop) : Value → Settings → Prop
  | map {entries : List (Value × Value)} {s : Settings} :
      KeysAmong ["order-by", "import"] entries →
      Field OrderValue Settings.default.defaultOrder (under? "order-by" entries) s.defaultOrder →
      Field (ImportsValue called) Settings.default.imports (under? "import" entries) s.imports →
      Follows called (.map entries) s

/-! ## Decoding follows it -/

theorem under?_underNames (pairs : List (Name × Value)) (name : String) :
    under? name (pairs.map fun p => (.keyword p.1, p.2)) =
      pairs.reverse.findSome? fun p => if p.1 = .plain name then some p.2 else none := by
  rw [under?, ← List.map_reverse, List.findSome?_map]
  rfl

theorem refuseUnknown_eq_ok_iff {known : List String} {d : Dict String Value} :
    refuseUnknown known d = .ok () ↔ ∀ key ∈ d.keys, key ∈ known := by
  rw [refuseUnknown]
  cases hfind : d.keys.find? (· ∉ known) with
  | none => simpa using hfind
  | some key =>
    have hkey := List.find?_some hfind
    have hmem := List.mem_of_find?_eq_some hfind
    simp only [reduceCtorEq, false_iff]
    exact fun hall => of_decide_eq_true hkey (hall key hmem)

section Known

variable {known : List String} (hknown : ∀ name ∈ known, '/' ∉ name.toList)

include hknown

theorem keysAmong_iff {pairs : List (Name × Value)} :
    KeysAmong known (pairs.map fun p => (.keyword p.1, p.2)) ↔
      ∀ key ∈ (Dict.ofList (pairs.map fun p => (p.1.qualified, p.2))).keys, key ∈ known := by
  simp only [KeysAmong, List.forall_mem_map, Dict.mem_keys_ofList, Value.keyword.injEq]
  constructor
  · rintro h _ ⟨_, hmem, rfl⟩
    obtain ⟨p, hp, rfl⟩ := List.mem_map.mp hmem
    obtain ⟨name, hname, hplain⟩ := h p hp
    exact (Name.qualified_eq_iff (hknown name hname)).mpr hplain ▸ hname
  · intro h p hp
    have hname := h p.1.qualified ⟨_, List.mem_map.mpr ⟨p, hp, rfl⟩, rfl⟩
    exact ⟨_, hname, (Name.qualified_eq_iff (hknown _ hname)).mp rfl⟩

/-- Looking up a text finds what the map has under the keyword. -/
theorem get?_eq_under? (pairs : List (Name × Value)) {name : String} (hname : name ∈ known) :
    (Dict.ofList (pairs.map fun p => (p.1.qualified, p.2))).get? name =
      under? name (pairs.map fun p => (.keyword p.1, p.2)) := by
  rw [Dict.get?_ofList_eq, under?_underNames, ← List.map_reverse, List.findSome?_map]
  congr 1
  funext p
  simp only [Function.comp_apply, Name.qualified_eq_iff (hknown name hname)]

/-- A map without unknown keys passes. -/
theorem exists_dict_of_keysAmong {entries : List (Value × Value)} (h : KeysAmong known entries) :
    ∃ d, (Value.map entries).asKeywordMap = .ok d ∧ refuseUnknown known d = .ok () ∧
      ∀ name ∈ known, d.get? name = under? name entries := by
  have hkeywords : ∀ e ∈ entries, ∃ n, e.1 = .keyword n := fun e he =>
    (h e he).imp' Name.plain fun _ hname => hname.2
  obtain ⟨pairs, rfl⟩ := Value.exists_names hkeywords
  exact ⟨_, Value.asKeywordMap_underNames pairs,
    refuseUnknown_eq_ok_iff.mpr ((keysAmong_iff hknown).mp h),
    fun _ hname => get?_eq_under? hknown pairs hname⟩

/-- What passes is a map without unknown keys. -/
theorem exists_entries_of_known {v : Value} {d : Dict String Value} (hd : v.asKeywordMap = .ok d)
    (h : refuseUnknown known d = .ok ()) :
    ∃ entries, v = .map entries ∧ KeysAmong known entries ∧
      ∀ name ∈ known, d.get? name = under? name entries := by
  cases v with
  | map entries =>
    have hkeywords : ∀ e ∈ entries, ∃ n, e.1 = .keyword n := by
      by_contra hnot
      push Not at hnot
      obtain ⟨e, he⟩ := Value.exists_asKeywordMap_error_iff.mpr hnot
      cases he.symm.trans hd
    obtain ⟨pairs, rfl⟩ := Value.exists_names hkeywords
    cases (Value.asKeywordMap_underNames pairs).symm.trans hd
    exact ⟨_, rfl, (keysAmong_iff hknown).mpr (refuseUnknown_eq_ok_iff.mp h),
      fun _ hname => get?_eq_under? hknown pairs hname⟩
  | _ => cases hd

end Known

theorem asNonNegative_eq_ok_iff {i : Int64} {n : Nat} :
    (Value.integer i).asNonNegative = .ok n ↔ i.toInt = n := by
  simp only [Value.asNonNegative, Value.asInteger, Int64.lt_iff_toInt_lt]
  split
  · next hneg =>
    have hneg' : i.toInt < 0 := hneg
    simp only [reduceCtorEq, false_iff]
    omega
  · next hpos =>
    have hpos' : ¬i.toInt < 0 := hpos
    simp only [Except.ok.injEq]
    omega

theorem asNilable_eq_ok_iff {v : Value} {sentinel : Option Nat} :
    v.asNilable Value.asNonNegative = .ok sentinel ↔ SentinelValue v sentinel := by
  constructor
  · intro h
    cases v with
    | nil =>
      cases h
      exact .nil
    | integer i =>
      obtain ⟨n, hn, rfl⟩ := map_eq_ok_iff.mp h
      exact .integer (asNonNegative_eq_ok_iff.mp hn)
    | _ => cases h
  · rintro (_ | hn)
    · rfl
    · exact map_eq_ok_iff.mpr ⟨_, asNonNegative_eq_ok_iff.mpr hn, rfl⟩

theorem decodeDangling_eq_ok_iff {v : Value} {dangling : Dangling} :
    decodeDangling v = .ok dangling ↔ PolicyValue Name.EndsIn v dangling := by
  constructor
  · intro h
    obtain ⟨n, hn, hpolicy⟩ := bind_eq_ok_iff.mp h
    obtain rfl := Value.eq_keyword_of_asKeyword (atKey_eq_ok_iff.mp hn)
    split at hpolicy
    · next hdrop =>
      cases hpolicy
      exact .drop hdrop
    · split at hpolicy
      · next hfail =>
        cases hpolicy
        exact .fail hfail
      · cases hpolicy
  · rintro (hdrop | hfail)
    · exact if_pos hdrop
    · have hdrop : ¬_ = "drop" := fun heq => absurd (hfail.symm.trans heq) (by decide)
      exact (if_neg hdrop).trans (if_pos hfail)

section Fields

variable {α β γ : Type}

/-- A field of a map: its default without an entry, and else what is decoded. -/
def decodeField (decode : Value → Except SettingsError α) (default : α) :
    Option Value → Except SettingsError α
  | none => .ok default
  | some v => decode v

theorem decodeField_eq_ok_iff {decode : Value → Except SettingsError α} {rule : Value → α → Prop}
    (h : ∀ v a, decode v = .ok a ↔ rule v a) {default a : α} {entry : Option Value} :
    decodeField decode default entry = .ok a ↔ Field rule default entry a := by
  cases entry with
  | none => exact ⟨fun h => (Except.ok.inj h).symm, fun h => congrArg Except.ok h.symm⟩
  | some v => exact h v a

/-- A map of two fields, each decoded for itself. -/
def decodeFields (key first second : String) (decode : Value → Except SettingsError α) (a : α)
    (decode' : Value → Except SettingsError β) (b : β) (build : α → β → γ) (v : Value) :
    Except SettingsError γ := do
  let d ← atKey key v.asKeywordMap
  refuseUnknown [first, second] d
  let x ← decodeField decode a (d.get? first)
  let y ← decodeField decode' b (d.get? second)
  pure (build x y)

theorem decodeFields_eq_ok_iff {key first second : String}
    (hknown : ∀ name ∈ [first, second], '/' ∉ name.toList)
    {decode : Value → Except SettingsError α} {rule : Value → α → Prop}
    (h : ∀ v a, decode v = .ok a ↔ rule v a)
    {decode' : Value → Except SettingsError β} {rule' : Value → β → Prop}
    (h' : ∀ v b, decode' v = .ok b ↔ rule' v b)
    {a : α} {b : β} {build : α → β → γ} {v : Value} {c : γ} :
    decodeFields key first second decode a decode' b build v = .ok c ↔
      ∃ entries x y, v = .map entries ∧ KeysAmong [first, second] entries ∧
        Field rule a (under? first entries) x ∧ Field rule' b (under? second entries) y ∧
        build x y = c := by
  simp only [decodeFields, bind_eq_ok_iff, atKey_eq_ok_iff, decodeField_eq_ok_iff h,
    decodeField_eq_ok_iff h']
  constructor
  · rintro ⟨d, hd, _, hrefuse, x, hx, y, hy, hc⟩
    obtain ⟨entries, rfl, hkeys, hget⟩ := exists_entries_of_known hknown hd hrefuse
    rw [hget _ (by simp)] at hx hy
    exact ⟨entries, x, y, rfl, hkeys, hx, hy, Except.ok.inj hc⟩
  · rintro ⟨entries, x, y, rfl, hkeys, hx, hy, rfl⟩
    obtain ⟨d, hd, hrefuse, hget⟩ := exists_dict_of_keysAmong hknown hkeys
    rw [← hget _ (by simp)] at hx hy
    exact ⟨d, hd, (), hrefuse, x, hx, y, hy, rfl⟩

end Fields

theorem decodeImports_eq (v : Value) :
    decodeImports v = decodeFields "import" "root-sentinel" "dangling"
      (fun v => atKey "import/root-sentinel" (v.asNilable Value.asNonNegative))
      ImportSettings.default.sentinel decodeDangling ImportSettings.default.dangling
      ImportSettings.mk v := by
  rw [decodeImports, decodeFields]
  congr 1
  funext d
  congr 1
  funext _
  cases d.get? "root-sentinel" <;> cases d.get? "dangling" <;> rfl

theorem ofEdn_eq (v : Value) :
    ofEdn v = decodeFields "config" "order-by" "import" decodeOrder Settings.default.defaultOrder
      decodeImports Settings.default.imports Settings.mk v := by
  rw [ofEdn, decodeFields]
  congr 1
  funext d
  congr 1
  funext _
  cases d.get? "order-by" <;> cases d.get? "import" <;> rfl

theorem decodeImports_eq_ok_iff {v : Value} {imports : ImportSettings} :
    decodeImports v = .ok imports ↔ ImportsValue Name.EndsIn v imports := by
  have hsentinel (v : Value) (sentinel : Option Nat) :
      atKey "import/root-sentinel" (v.asNilable Value.asNonNegative) = .ok sentinel ↔
        SentinelValue v sentinel := atKey_eq_ok_iff.trans asNilable_eq_ok_iff
  rw [decodeImports_eq, decodeFields_eq_ok_iff (by decide) hsentinel
    fun _ _ => decodeDangling_eq_ok_iff]
  constructor
  · rintro ⟨entries, sentinel, dangling, rfl, hkeys, hs, hp, rfl⟩
    exact .map hkeys hs hp
  · rintro ⟨hkeys, hs, hp⟩
    exact ⟨_, _, _, rfl, hkeys, hs, hp, rfl⟩

theorem ofEdn_eq_ok_iff {v : Value} {s : Settings} :
    ofEdn v = .ok s ↔ Follows Name.EndsIn v s := by
  rw [ofEdn_eq, decodeFields_eq_ok_iff (by decide) (fun _ _ => decodeOrder_eq_ok_iff)
    fun _ _ => decodeImports_eq_ok_iff]
  constructor
  · rintro ⟨entries, order, imports, rfl, hkeys, ho, hi, rfl⟩
    exact .map hkeys ho hi
  · rintro ⟨hkeys, ho, hi⟩
    exact ⟨_, _, _, rfl, hkeys, ho, hi, rfl⟩

/-! ## Refusals name an entry -/

section Refusals

variable {α β : Type}

/-- What fails says of which entry. -/
def NamesEntry (x : Except SettingsError α) : Prop :=
  ∀ e, x = .error e → ∃ key fault, e = .invalid key fault

theorem namesEntry_ok (a : α) : NamesEntry (.ok a) := nofun

theorem namesEntry_invalid (key : String) (fault : SettingFault) :
    NamesEntry (.error (.invalid key fault) : Except SettingsError α) := by
  rintro _ ⟨⟩
  exact ⟨key, fault, rfl⟩

theorem NamesEntry.bind {x : Except SettingsError α} (hx : NamesEntry x)
    {f : α → Except SettingsError β} (hf : ∀ a, NamesEntry (f a)) : NamesEntry (x >>= f) := by
  cases x with
  | ok a => exact hf a
  | error e =>
    rintro _ ⟨⟩
    exact hx e rfl

theorem namesEntry_atKey (key : String) (x : Except DecodingError α) :
    NamesEntry (atKey key x) := by
  cases x with
  | ok a => exact namesEntry_ok a
  | error e => exact namesEntry_invalid _ _

theorem namesEntry_orderOfText (text : String) : NamesEntry (orderOfText text) := by
  rw [orderOfText]
  split
  · exact namesEntry_ok _
  · exact namesEntry_invalid _ _

private theorem namesEntry_decodeOrder (v : Value) : NamesEntry (decodeOrder v) := by
  cases v with
  | string s => exact namesEntry_orderOfText s
  | keyword n => exact namesEntry_orderOfText n.qualified
  | vector items => exact (namesEntry_atKey _ _).bind fun _ => namesEntry_orderOfText _
  | list items => exact (namesEntry_atKey _ _).bind fun _ => namesEntry_orderOfText _
  | _ => exact namesEntry_invalid _ _

private theorem namesEntry_decodeDangling (v : Value) : NamesEntry (decodeDangling v) := by
  refine (namesEntry_atKey _ _).bind fun n => ?_
  split
  · exact namesEntry_ok _
  · split
    · exact namesEntry_ok _
    · exact namesEntry_invalid _ _

private theorem namesEntry_decodeFields {γ : Type} {decode : Value → Except SettingsError α}
    (h : ∀ v, NamesEntry (decode v)) {decode' : Value → Except SettingsError β}
    (h' : ∀ v, NamesEntry (decode' v)) (key first second : String) (a : α) (b : β)
    (build : α → β → γ) (v : Value) :
    NamesEntry (decodeFields key first second decode a decode' b build v) := by
  have hrefuse (d : Dict String Value) : NamesEntry (refuseUnknown [first, second] d) := by
    rw [refuseUnknown]
    split
    · exact namesEntry_invalid _ _
    · exact namesEntry_ok _
  refine (namesEntry_atKey key _).bind fun d => (hrefuse d).bind fun _ => ?_
  have hfirst : NamesEntry (decodeField decode a (d.get? first)) := by
    cases d.get? first with
    | none => exact namesEntry_ok a
    | some v => exact h v
  have hsecond : NamesEntry (decodeField decode' b (d.get? second)) := by
    cases d.get? second with
    | none => exact namesEntry_ok b
    | some v => exact h' v
  exact hfirst.bind fun x => hsecond.bind fun y => namesEntry_ok _

theorem namesEntry_ofEdn (v : Value) : NamesEntry (ofEdn v) := by
  have himports (v : Value) : NamesEntry (decodeImports v) := by
    rw [decodeImports_eq]
    exact namesEntry_decodeFields (fun _ => namesEntry_atKey _ _) namesEntry_decodeDangling
      _ _ _ _ _ _ v
  rw [ofEdn_eq]
  exact namesEntry_decodeFields namesEntry_decodeOrder himports _ _ _ _ _ _ v

end Refusals

/-! ## Policies of other namespaces -/

/-- Import settings whose policy is a keyword inside a namespace. -/
def ForeignPolicy (v : Value) : Prop :=
  ∃ entries n, v = .map entries ∧ under? "dangling" entries = some (.keyword n) ∧ n.space ≠ none

/-- Settings of such imports. -/
def ForeignImports (v : Value) : Prop :=
  ∃ entries imports, v = .map entries ∧ under? "import" entries = some imports ∧
    ForeignPolicy imports

theorem policyValue_is_iff {v : Value} {dangling : Dangling} : PolicyValue Name.Is v dangling ↔
    PolicyValue Name.EndsIn v dangling ∧ ∀ n, v = .keyword n → n.space = none := by
  have hword {n : Name} {word : String} : n.Is word ↔ n.EndsIn word ∧ n.space = none := by
    obtain ⟨space, base⟩ := n
    simp [Name.Is, Name.EndsIn, Name.plain, and_comm]
  constructor
  · rintro (h | h)
    · obtain ⟨hbase, hspace⟩ := hword.mp h
      refine ⟨.drop hbase, ?_⟩
      rintro _ ⟨⟩
      exact hspace
    · obtain ⟨hbase, hspace⟩ := hword.mp h
      refine ⟨.fail hbase, ?_⟩
      rintro _ ⟨⟩
      exact hspace
  · rintro ⟨h | h, hspace⟩
    · exact .drop (hword.mpr ⟨h, hspace _ rfl⟩)
    · exact .fail (hword.mpr ⟨h, hspace _ rfl⟩)

theorem importsValue_is_iff {v : Value} {imports : ImportSettings} :
    ImportsValue Name.Is v imports ↔ ImportsValue Name.EndsIn v imports ∧ ¬ForeignPolicy v := by
  have hfield {entry : Option Value} {dangling default : Dangling} :
      Field (PolicyValue Name.Is) default entry dangling ↔
        Field (PolicyValue Name.EndsIn) default entry dangling ∧
          ∀ n, entry = some (.keyword n) → n.space = none := by
    cases entry with
    | none => simp [Field]
    | some v => simpa [Field] using policyValue_is_iff
  constructor
  · rintro ⟨hkeys, hs, hp⟩
    obtain ⟨hp, hspace⟩ := hfield.mp hp
    refine ⟨.map hkeys hs hp, ?_⟩
    rintro ⟨_, n, ⟨⟩, hn, hne⟩
    exact hne (hspace n hn)
  · rintro ⟨⟨hkeys, hs, hp⟩, hown⟩
    refine .map hkeys hs (hfield.mpr ⟨hp, fun n hn => ?_⟩)
    by_contra hne
    exact hown ⟨_, n, rfl, hn, hne⟩

theorem follows_is_iff {v : Value} {s : Settings} :
    Follows Name.Is v s ↔ Follows Name.EndsIn v s ∧ ¬ForeignImports v := by
  have hfield {entry : Option Value} {imports default : ImportSettings} :
      Field (ImportsValue Name.Is) default entry imports ↔
        Field (ImportsValue Name.EndsIn) default entry imports ∧
          ∀ v, entry = some v → ¬ForeignPolicy v := by
    cases entry with
    | none => simp [Field]
    | some v => simpa [Field] using importsValue_is_iff
  constructor
  · rintro ⟨hkeys, ho, hi⟩
    obtain ⟨hi, hown⟩ := hfield.mp hi
    refine ⟨.map hkeys ho hi, ?_⟩
    rintro ⟨_, v, ⟨⟩, hv, hforeign⟩
    exact hown v hv hforeign
  · rintro ⟨⟨hkeys, ho, hi⟩, hown⟩
    exact .map hkeys ho (hfield.mpr ⟨hi, fun v hv hforeign => hown ⟨_, v, rfl, hv, hforeign⟩⟩)

/-- Settings are read from just the values that follow the schema in which a policy may be a keyword
of any namespace, and have in each field what the schema says. The values that follow the schema in
which only `:drop` and `:fail` are policies are those of them that have no policy in a namespace. A
value that follows neither is refused for one of its entries. -/
theorem settings_follow_schema (v : Value) :
    (∀ s, ofEdn v = .ok s ↔ Follows Name.EndsIn v s) ∧
    (∀ s, Follows Name.Is v s ↔ ofEdn v = .ok s ∧ ¬ForeignImports v) ∧
    ((∃ key fault, ofEdn v = .error (.invalid key fault)) ↔ ¬∃ s, Follows Name.EndsIn v s) := by
  refine ⟨fun s => ofEdn_eq_ok_iff, fun s => ?_, ?_⟩
  · rw [ofEdn_eq_ok_iff]
    exact follows_is_iff
  · simp only [← ofEdn_eq_ok_iff]
    constructor
    · rintro ⟨key, fault, herror⟩ ⟨s, hs⟩
      cases herror.symm.trans hs
    · intro hnone
      cases h : ofEdn v with
      | ok s => exact absurd ⟨s, h⟩ hnone
      | error e =>
        obtain ⟨key, fault, rfl⟩ := namesEntry_ofEdn v e h
        exact ⟨key, fault, rfl⟩

/-- A keyword in a namespace of its own is taken for a policy: settings are read from a value that
does not follow the schema in which only `:drop` and `:fail` are policies. -/
theorem settings_of_foreign_policy :
    let v := Value.map [(.keyword (.plain "import"),
      .map [(.keyword (.plain "dangling"), .keyword ⟨some "x", "fail"⟩)])]
    Value.read "\x7b:import \x7b:dangling :x/fail\x7d\x7d" = .ok v ∧
      ofEdn v = .ok ⟨Settings.default.defaultOrder, ⟨ImportSettings.default.sentinel, .fail⟩⟩ ∧
      ¬∃ s, Follows Name.Is v s := by
  refine ⟨by with_unfolding_all rfl, rfl, ?_⟩
  rintro ⟨s, hs⟩
  exact (follows_is_iff.mp hs).2 ⟨_, _, rfl, rfl, _, _, rfl, rfl, Option.some_ne_none "x"⟩

end Settings

end FlatTree
