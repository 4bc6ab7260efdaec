import FlatTree.External.Edn
import FlatTree.Proofs.KeywordMaps
import Mathlib.Data.List.Nodup

/-!
# External nodes as values and back

A node has a form in the data notation unless a number of it, or a reference among its attributes,
does not fit an integer of 64 bits, that is, reaches `2 ^ 63`, which is written in base 16 here.
Reading the form gives back the node, and whatever a node was read from, it has a form.
-/

namespace FlatTree

open Edn

/-! ## Numbers and references in range -/

namespace Attribute

/-- The node an attribute refers to, if its number does not fit an integer of 64 bits. -/
def farRef? : Attribute → Option NodeId
  | .ref id => if 0x8000000000000000 ≤ id.val then some id else none
  | _ => none

end Attribute

namespace ExternalNode

/-- A number that does not fit an integer of 64 bits, with its key. -/
def large? (p : String × Option Nat) : Option (String × Nat) :=
  (p.2.filter (0x8000000000000000 ≤ ·)).map (p.1, ·)

/-- The first of the four numbers of a node that does not fit. -/
def largeNumber? (n : ExternalNode) : Option (String × Nat) :=
  [("id", n.id), ("parent", n.parent), ("direct-children-count", n.directChildren),
    ("children-count", n.descendants)].findSome? large?

/-- Why a node has no form: its first number that does not fit, or else the first reference, by the
names of the attributes. -/
def refusal? (n : ExternalNode) : Option EncodingError :=
  match n.largeNumber? with
  | some (key, v) => some (.integerOutOfRange key v)
  | none => (n.attributes.entries.findSome? (·.2.farRef?)).map .refOutOfRange

end ExternalNode

private theorem toNat_toInt_ofNat {n : Nat} (h : n < 0x8000000000000000) :
    (Int64.ofNat n).toInt.toNat = n := by
  rw [Int64.toInt_ofNat_of_lt h, Int.toNat_natCast]

private theorem ofNat_nonneg {n : Nat} (h : n < 0x8000000000000000) : 0 ≤ Int64.ofNat n := by
  rw [Int64.le_iff_toInt_le, Int64.toInt_ofNat_of_lt h]
  exact Int.natCast_nonneg n

theorem toNat_toInt_lt (i : Int64) : i.toInt.toNat < 0x8000000000000000 := by
  have := i.toInt_lt
  omega

namespace Attribute

variable {a : Attribute} {v : Value}

theorem toEdn_eq_error_iff {e : EncodingError} :
    a.toEdn = .error e ↔ a.farRef?.map .refOutOfRange = some e := by
  cases a with
  | ref id =>
    by_cases h : id.val < 0x8000000000000000
    · have hedn : (ref id).toEdn = .ok (.tagged refTag (.integer (Int64.ofNat id.val))) := if_pos h
      have hfar : (ref id).farRef? = none := if_neg (Nat.not_le.mpr h)
      simp [hedn, hfar]
    · have hedn : (ref id).toEdn = .error (.refOutOfRange id) := if_neg h
      have hfar : (ref id).farRef? = some id := if_pos (Nat.not_lt.mp h)
      simp [hedn, hfar]
  | _ => simp [toEdn, farRef?]

theorem ofEdn_of_toEdn (h : a.toEdn = .ok v) : ofEdn v = .ok a := by
  cases a with
  | ref id =>
    rw [toEdn] at h
    split at h
    · next hlt =>
      cases h
      simp only [ofEdn, if_true, ofNat_nonneg hlt, toNat_toInt_ofNat hlt]
    · cases h
  | keyword name =>
    cases h
    simp [ofEdn]
  | _ =>
    cases h
    rfl

/-- What was read is in range. -/
theorem farRef?_of_ofEdn (h : ofEdn v = .ok a) : a.farRef? = none := by
  cases a with
  | ref id =>
    rw [ofEdn.eq_def] at h
    split at h
    all_goals try cases h
    split at h
    · split at h
      · split at h
        · cases h
          rw [farRef?, if_neg (Nat.not_le.mpr (toNat_toInt_lt _))]
        · cases h
      · cases h
    · cases h
  | _ => rfl

end Attribute

/-! ## Attributes -/

/-- The form of an attribute with its name. -/
def namedForm (p : String × Attribute) : Except EncodingError (String × Value) :=
  p.2.toEdn.map (p.1, ·)

theorem namedForm_eq_ok_iff {p : String × Attribute} {q : String × Value} :
    namedForm p = .ok q ↔ q.1 = p.1 ∧ p.2.toEdn = .ok q.2 := by
  rw [namedForm]
  cases p.2.toEdn <;> simp [Except.map, Prod.ext_iff, eq_comm]

/-- The attribute that a value under a name stands for. -/
def namedAttribute (p : String × Value) : Except DecodingError (String × Attribute) :=
  (Attribute.ofEdn p.2).map (p.1, ·)

theorem namedAttribute_eq_ok_iff {p : String × Value} {q : String × Attribute} :
    namedAttribute p = .ok q ↔ q.1 = p.1 ∧ Attribute.ofEdn p.2 = .ok q.2 := by
  rw [namedAttribute]
  cases Attribute.ofEdn p.2 <;> simp [Except.map, Prod.ext_iff, eq_comm]

namespace ExternalNode

theorem attributesToEdn_eq (attributes : Attributes) :
    attributesToEdn attributes =
      (attributes.entries.mapM namedForm).map fun pairs => .map (Value.keyedEntries pairs) := by
  have hfold : attributes.entries.foldlM (fun es (p : String × Attribute) =>
      p.2.toEdn.map fun v => Entries.put (Value.keyword (Name.ofQualified p.1)) v es) [] =
        (attributes.entries.mapM namedForm).map Value.keyedEntries := by
    refine Eq.trans ?_ (foldlM_map_eq (f := namedForm)
      (fun es p => Entries.put (Value.keyword (Name.ofQualified p.1)) p.2 es) attributes.entries [])
    congr 1
    funext es ⟨name, a⟩
    simp only [namedForm]
    cases a.toEdn <;> rfl
  rw [attributesToEdn]
  refine (congrArg (· >>= _) hfold).trans ?_
  cases attributes.entries.mapM namedForm <;> rfl

theorem attributesToEdn_eq_error_iff {attributes : Attributes} {e : EncodingError} :
    attributesToEdn attributes = .error e ↔
      (attributes.entries.findSome? (·.2.farRef?)).map .refOutOfRange = some e := by
  have hform : ∀ (p : String × Attribute) e,
      namedForm p = .error e ↔ p.2.farRef?.map .refOutOfRange = some e := by
    intro p e
    rw [← Attribute.toEdn_eq_error_iff, namedForm]
    cases p.2.toEdn <;> simp [Except.map]
  rw [attributesToEdn_eq, List.map_findSome?]
  refine Iff.trans ?_ (mapM_eq_error_iff hform)
  cases attributes.entries.mapM namedForm <;> simp [Except.map]

theorem attributesOfEdn_eq (v : Value) :
    attributesOfEdn v =
      v.asKeywordMap >>= fun d => (d.entries.mapM namedAttribute).map Dict.ofList := by
  rw [attributesOfEdn]
  congr 1
  funext d
  refine Eq.trans ?_ (foldlM_map_eq (f := namedAttribute) (fun d p => d.put p.1 p.2) d.entries
    Dict.empty)
  congr 1
  funext d ⟨name, v⟩
  simp only [namedAttribute]
  cases Attribute.ofEdn v <;> rfl

/-- The names of the attributes are kept, so the map has one entry for each of them. -/
theorem attributesOfEdn_of_toEdn {attributes : Attributes} {v : Value}
    (h : attributesToEdn attributes = .ok v) : attributesOfEdn v = .ok attributes := by
  rw [attributesToEdn_eq] at h
  cases hpairs : attributes.entries.mapM namedForm with
  | error e => simp [hpairs, Except.map] at h
  | ok pairs =>
    simp only [hpairs, Except.map, Except.ok.injEq] at h
    subst h
    have hnames : pairs.map Prod.fst = attributes.keys :=
      map_fst_of_mapM (fun _ _ hform => (namedForm_eq_ok_iff.mp hform).1) hpairs
    have hnodup : (pairs.map Prod.fst).Nodup := hnames ▸ attributes.nodup_keys
    have hback : pairs.mapM namedAttribute = .ok attributes.entries := by
      rw [mapM_eq_ok_iff]
      refine (mapM_eq_ok_iff.mp hpairs).flip.imp fun _ _ hform => ?_
      obtain ⟨hname, hvalue⟩ := namedForm_eq_ok_iff.mp hform
      exact namedAttribute_eq_ok_iff.mpr ⟨hname.symm, Attribute.ofEdn_of_toEdn hvalue⟩
    obtain ⟨entries, hentries, hperm⟩ := mapM_perm (Dict.entries_ofList_perm hnodup) hback
    rw [attributesOfEdn_eq, Value.asKeywordMap_keyedEntries hnodup]
    simp only [bind, Except.bind, hentries, Except.map,
      Dict.ofList_congr attributes.nodup_keys hperm, Dict.ofList_entries]

/-- What was read fits. -/
theorem farRef?_of_attributesOfEdn {attributes : Attributes} {v : Value}
    (h : attributesOfEdn v = .ok attributes) :
    attributes.entries.findSome? (·.2.farRef?) = none := by
  rw [attributesOfEdn_eq] at h
  cases hmap : v.asKeywordMap with
  | error e => simp [hmap, bind, Except.bind] at h
  | ok d =>
    cases hpairs : d.entries.mapM namedAttribute with
    | error e => simp [hmap, hpairs, bind, Except.bind, Except.map] at h
    | ok pairs =>
      simp only [hmap, hpairs, bind, Except.bind, Except.map, Except.ok.injEq] at h
      subst h
      have hnames : pairs.map Prod.fst = d.keys :=
        map_fst_of_mapM (fun _ _ hvalue => (namedAttribute_eq_ok_iff.mp hvalue).1) hpairs
      have hnodup : (pairs.map Prod.fst).Nodup := hnames ▸ d.nodup_keys
      rw [List.findSome?_eq_none_iff]
      intro p hp
      obtain ⟨q, -, hq⟩ :=
        exists_of_mem_mapM hpairs ((Dict.entries_ofList_perm hnodup).subset hp)
      exact Attribute.farRef?_of_ofEdn (namedAttribute_eq_ok_iff.mp hq).2

/-! ## Numbers -/

theorem large?_eq_none_iff {p : String × Option Nat} :
    large? p = none ↔ ∀ n, p.2 = some n → n < 0x8000000000000000 := by
  rw [large?, Option.map_eq_none_iff, Option.filter_eq_none_iff]
  exact forall₂_congr fun n _ => by rw [decide_eq_true_eq, Nat.not_le]

private theorem large?_of_lt {name : String} {n : Nat} (h : n < 0x8000000000000000) :
    large? (name, some n) = none :=
  large?_eq_none_iff.mpr fun _ hn => Option.some.inj hn ▸ h

private theorem large?_of_le {name : String} {n : Nat} (h : 0x8000000000000000 ≤ n) :
    large? (name, some n) = some (name, n) := by
  rw [large?, Option.filter_some, if_pos (decide_eq_true h)]
  rfl

/-- The numbers that are there, as values under their names. -/
def numberPairs (numbers : List (String × Option Nat)) : List (String × Value) :=
  numbers.filterMap fun p => p.2.map fun n => (p.1, .integer (Int64.ofNat n))

theorem numberEntries_eq (numbers : List (String × Option Nat)) :
    numberEntries numbers = (numbers.findSome? large?).elim
      (.ok ((numberPairs numbers).foldl (fun es p => Entries.put (key p.1) p.2 es) []))
      fun p => .error (.integerOutOfRange p.1 p.2) := by
  have hgeneral : ∀ es, numbers.foldlM (fun es (p : String × Option Nat) =>
      p.2.elim (.ok es) fun n => (numberToEdn p.1 n).map fun v => Entries.put (key p.1) v es) es =
        (numbers.findSome? large?).elim
          (.ok ((numberPairs numbers).foldl (fun es p => Entries.put (key p.1) p.2 es) es))
          fun p => .error (.integerOutOfRange p.1 p.2) := by
    induction numbers with
    | nil => exact fun _ => rfl
    | cons p numbers ih =>
      intro es
      obtain ⟨name, _ | n⟩ := p
      · exact ih es
      · rw [List.foldlM_cons]
        by_cases h : n < 0x8000000000000000
        · have hlarge : large? (name, some n) = none := large?_of_lt h
          have hnumber : numberToEdn name n = .ok (.integer (Int64.ofNat n)) := if_pos h
          rw [List.findSome?_cons, hlarge]
          simp only [Option.elim_some, hnumber]
          exact ih _
        · have hlarge : large? (name, some n) = some (name, n) := large?_of_le (Nat.not_lt.mp h)
          have hnumber : numberToEdn name n = .error (.integerOutOfRange name n) := if_neg h
          rw [List.findSome?_cons, hlarge]
          simp only [Option.elim_some, hnumber]
          rfl
  rw [← hgeneral [], numberEntries]
  congr 1
  funext es ⟨name, number⟩
  cases number <;> rfl

private theorem names_numberPairs_sublist (numbers : List (String × Option Nat)) :
    ((numberPairs numbers).map Prod.fst).Sublist (numbers.map Prod.fst) := by
  induction numbers with
  | nil => exact .slnil
  | cons p numbers ih =>
    obtain ⟨name, _ | n⟩ := p
    · exact ih.cons name
    · exact ih.cons_cons name

theorem mem_numberPairs {numbers : List (String × Option Nat)} {name : String} {v : Value} :
    (name, v) ∈ numberPairs numbers ↔
      ∃ n, (name, some n) ∈ numbers ∧ .integer (Int64.ofNat n) = v := by
  simp only [numberPairs, List.mem_filterMap, Option.map_eq_some_iff, Prod.mk.injEq]
  constructor
  · rintro ⟨⟨_, number⟩, hmem, n, rfl, rfl, rfl⟩
    exact ⟨n, hmem, rfl⟩
  · rintro ⟨n, hmem, rfl⟩
    exact ⟨_, hmem, n, rfl, rfl, rfl⟩

/-- A number that is there is read back, and one that is not is not. -/
theorem numberOfEdn_ofList {numbers : List (String × Option Nat)} {rest : List (String × Value)}
    (hnodup : ((numberPairs numbers ++ rest).map Prod.fst).Nodup)
    (hnumbers : (numbers.map Prod.fst).Nodup) (hlarge : numbers.findSome? large? = none)
    {name : String} (hrest : name ∉ rest.map Prod.fst) {number : Option Nat}
    (h : (name, number) ∈ numbers) :
    numberOfEdn (Dict.ofList (numberPairs numbers ++ rest)) name = .ok number := by
  have hget : ∀ v, (Dict.ofList (numberPairs numbers ++ rest)).get? name = some v ↔
      ∃ n, number = some n ∧ .integer (Int64.ofNat n) = v := by
    intro v
    have hnot : (name, v) ∉ rest := fun hmem => hrest (List.mem_map_of_mem hmem)
    rw [Dict.get?_ofList hnodup, List.mem_append, or_iff_left hnot, mem_numberPairs]
    refine exists_congr fun n => and_congr_left fun _ => ?_
    constructor
    · intro hmem
      exact congrArg Prod.snd (List.inj_on_of_nodup_map hnumbers h hmem rfl)
    · rintro rfl
      exact h
  rw [numberOfEdn]
  cases number with
  | none =>
    have hnone : (Dict.ofList (numberPairs numbers ++ rest)).get? name = none := by
      rw [Option.eq_none_iff_forall_ne_some]
      intro v hv
      obtain ⟨n, hn, -⟩ := (hget v).mp hv
      cases hn
    rw [hnone]
  | some n =>
    have hsome := (hget (.integer (Int64.ofNat n))).mpr ⟨n, rfl, rfl⟩
    have hlt : n < 0x8000000000000000 :=
      large?_eq_none_iff.mp (List.findSome?_eq_none_iff.mp hlarge _ h) n rfl
    have hnonneg : ¬Int64.ofNat n < 0 := by
      have := Int64.le_iff_toInt_le.mp (ofNat_nonneg hlt)
      rw [Int64.lt_iff_toInt_lt]
      omega
    rw [hsome]
    simp only [Value.asNilable, Value.asNonNegative, Value.asInteger, hnonneg, if_false,
      toNat_toInt_ofNat hlt]
    rfl

/-! ## Nodes -/

variable {n : ExternalNode} {v : Value}

theorem toEdn_eq_error_iff {e : EncodingError} : n.toEdn = .error e ↔ n.refusal? = some e := by
  have hnumbers := numberEntries_eq n.numbers
  have hlarge : n.largeNumber? = n.numbers.findSome? large? := rfl
  rw [toEdn, refusal?, hnumbers, hlarge]
  cases n.numbers.findSome? large? with
  | some p => simp [bind, Except.bind]
  | none =>
    dsimp only
    rw [← attributesToEdn_eq_error_iff]
    cases attributesToEdn n.attributes <;> simp [bind, Except.bind, pure, Except.pure]

private theorem key_of_mem_knownKeys {name : String} (h : name ∈ knownKeys) :
    key name = .keyword (Name.ofQualified name) := by
  have hslash : '/' ∉ name.toList := by
    revert name
    decide
  rw [Name.ofQualified_of_notMem hslash]
  rfl

/-- The entries of a node's map, by their names. -/
def nodePairs (n : ExternalNode) (attributes : Value) : List (String × Value) :=
  numberPairs n.numbers ++ [("attrs", attributes)]

private theorem names_nodePairs_sublist (n : ExternalNode) (attributes : Value) :
    ((n.nodePairs attributes).map Prod.fst).Sublist
      ["id", "parent", "direct-children-count", "children-count", "attrs"] := by
  rw [nodePairs, List.map_append]
  exact (names_numberPairs_sublist n.numbers).append_right ["attrs"]

theorem nodup_nodePairs (n : ExternalNode) (attributes : Value) :
    ((n.nodePairs attributes).map Prod.fst).Nodup :=
  (names_nodePairs_sublist n attributes).nodup (by decide)

theorem mem_knownKeys_of_mem_nodePairs {attributes : Value} {p : String × Value}
    (h : p ∈ n.nodePairs attributes) : p.1 ∈ knownKeys := by
  have hname := (names_nodePairs_sublist n attributes).subset (List.mem_map_of_mem h)
  generalize p.1 = name at hname
  revert name
  decide

theorem toEdn_eq_ok_iff : n.toEdn = .ok v ↔
    n.numbers.findSome? large? = none ∧
      ∃ attributes, attributesToEdn n.attributes = .ok attributes ∧
        v = .map (Value.keyedEntries (n.nodePairs attributes)) := by
  have hentries : ∀ attributes, Entries.put (key "attrs") attributes
      ((numberPairs n.numbers).foldl (fun es p => Entries.put (key p.1) p.2 es) []) =
        Value.keyedEntries (n.nodePairs attributes) := by
    intro attributes
    have hfold := List.foldl_ext (fun es (p : String × Value) => Entries.put (key p.1) p.2 es)
      (fun es p => Entries.put (.keyword (Name.ofQualified p.1)) p.2 es) []
      (l := n.nodePairs attributes) fun es p hp => by
        rw [key_of_mem_knownKeys (mem_knownKeys_of_mem_nodePairs hp)]
    rw [Value.keyedEntries, ← hfold, nodePairs, List.foldl_append]
    rfl
  rw [toEdn, numberEntries_eq]
  cases n.numbers.findSome? large? with
  | some p => simp [bind, Except.bind]
  | none =>
    cases attributesToEdn n.attributes with
    | error e => simp [bind, Except.bind]
    | ok attributes =>
      simp [bind, Except.bind, pure, Except.pure, hentries, eq_comm]

/-- A node that was read back from its form is the same node. -/
theorem ofEdn_of_toEdn (h : n.toEdn = .ok v) : ofEdn v = .ok n := by
  obtain ⟨hlarge, attributes, hattributes, rfl⟩ := toEdn_eq_ok_iff.mp h
  have hnodup := n.nodup_nodePairs attributes
  let d := Dict.ofList (n.nodePairs attributes)
  have hknown : refuseUnknown d = .ok () := by
    have hnone : d.keys.find? (· ∉ knownKeys) = none := by
      rw [List.find?_eq_none]
      intro name hname
      obtain ⟨p, hp, rfl⟩ := List.mem_map.mp hname
      have hmem := mem_knownKeys_of_mem_nodePairs ((Dict.entries_ofList_perm hnodup).subset hp)
      simpa using hmem
    rw [refuseUnknown, hnone]
  have hattrs : d.get? "attrs" = some attributes :=
    (Dict.get?_ofList hnodup).mpr (by simp [nodePairs])
  have hnumber : ∀ name number, (name, number) ∈ n.numbers → name ≠ "attrs" →
      numberOfEdn d name = .ok number := fun name number hmem hne =>
    numberOfEdn_ofList hnodup
      (show ["id", "parent", "direct-children-count", "children-count"].Nodup by decide) hlarge
      (by simpa using hne) hmem
  rw [ofEdn, Value.asKeywordMap_keyedEntries hnodup]
  simp only [bind, Except.bind, pure, Except.pure]
  rw [hknown, hattrs]
  simp only [attributesOfEdn_of_toEdn hattributes]
  rw [hnumber "id" n.id (by simp [numbers]) (by decide),
    hnumber "parent" n.parent (by simp [numbers]) (by decide),
    hnumber "direct-children-count" n.directChildren (by simp [numbers]) (by decide),
    hnumber "children-count" n.descendants (by simp [numbers]) (by decide)]

private theorem lt_of_asNonNegative {k : Nat} (h : v.asNonNegative = .ok k) :
    k < 0x8000000000000000 := by
  rw [Value.asNonNegative] at h
  split at h
  · split at h
    · cases h
    · cases h
      exact toNat_toInt_lt _
  · cases h

/-- Numbers that were read fit, under whatever name they are written. -/
theorem large?_of_numberOfEdn {entries : Dict String Value} {name : String} {number : Option Nat}
    (h : numberOfEdn entries name = .ok number) (key : String) : large? (key, number) = none := by
  cases number with
  | none => rfl
  | some k =>
    have hlt : k < 0x8000000000000000 := by
      rw [numberOfEdn] at h
      split at h
      · next v _ =>
        rw [Value.asNilable.eq_def] at h
        split at h
        · cases h
        · cases hk : v.asNonNegative with
          | error e => simp [hk, Except.map] at h
          | ok k' =>
            simp only [hk, Except.map, Except.ok.injEq, Option.some.injEq] at h
            exact h ▸ lt_of_asNonNegative hk
      · cases h
    exact large?_of_lt hlt

private theorem refusal?_of_numbers {entries : Dict String Value} {attributes : Attributes}
    (hrefs : attributes.entries.findSome? (·.2.farRef?) = none)
    (h : (do
      let id ← numberOfEdn entries "id"
      let parent ← numberOfEdn entries "parent"
      let directChildren ← numberOfEdn entries "direct-children-count"
      let descendants ← numberOfEdn entries "children-count"
      pure ⟨id, parent, attributes, directChildren, descendants⟩) = Except.ok n) :
    n.refusal? = none := by
  obtain ⟨id, hid, h⟩ := bind_eq_ok_iff.mp h
  obtain ⟨parent, hparent, h⟩ := bind_eq_ok_iff.mp h
  obtain ⟨directChildren, hdirect, h⟩ := bind_eq_ok_iff.mp h
  obtain ⟨descendants, hdescendants, h⟩ := bind_eq_ok_iff.mp h
  cases h
  have hlarge : largeNumber? ⟨id, parent, attributes, directChildren, descendants⟩ = none := by
    simp only [largeNumber?, List.findSome?_cons, large?_of_numberOfEdn hid,
      large?_of_numberOfEdn hparent, large?_of_numberOfEdn hdirect,
      large?_of_numberOfEdn hdescendants, List.findSome?_nil]
  rw [refusal?, hlarge, hrefs]
  rfl

/-- Whatever a node was read from, it has a form. -/
theorem refusal?_of_ofEdn (h : ofEdn v = .ok n) : n.refusal? = none := by
  rw [ofEdn] at h
  obtain ⟨entries, -, h⟩ := bind_eq_ok_iff.mp h
  obtain ⟨-, -, h⟩ := bind_eq_ok_iff.mp h
  dsimp only at h
  split at h
  · obtain ⟨attributes, hattributes, h⟩ := bind_eq_ok_iff.mp h
    exact refusal?_of_numbers (farRef?_of_attributesOfEdn hattributes) h
  · have hrefs : (Dict.empty : Attributes).entries.findSome? (·.2.farRef?) = none := rfl
    exact refusal?_of_numbers hrefs h

theorem exists_toEdn_iff : (∃ v, n.toEdn = .ok v) ↔ n.refusal? = none := by
  cases h : n.toEdn with
  | ok v =>
    have hnone : n.refusal? = none := by
      rw [Option.eq_none_iff_forall_ne_some]
      intro e he
      cases h.symm.trans (toEdn_eq_error_iff.mpr he)
    simp [hnone]
  | error e => simp [toEdn_eq_error_iff.mp h]

theorem largeNumber?_eq_none_iff : n.largeNumber? = none ↔
    ∀ k, (n.id = some k ∨ n.parent = some k ∨ n.directChildren = some k ∨
      n.descendants = some k) → k < 0x8000000000000000 := by
  simp only [largeNumber?, List.findSome?_eq_none_iff, List.forall_mem_cons, large?_eq_none_iff]
  constructor
  · rintro ⟨hid, hparent, hdirect, hdescendants, -⟩ k (h | h | h | h)
    · exact hid k h
    · exact hparent k h
    · exact hdirect k h
    · exact hdescendants k h
  · intro h
    exact ⟨fun k hk => h k (.inl hk), fun k hk => h k (.inr (.inl hk)),
      fun k hk => h k (.inr (.inr (.inl hk))), fun k hk => h k (.inr (.inr (.inr hk))), by simp⟩

theorem findSome?_farRef?_eq_none_iff {attributes : Attributes} :
    attributes.entries.findSome? (·.2.farRef?) = none ↔
      ∀ name id, attributes.get? name = some (.ref id) → id.val < 0x8000000000000000 := by
  simp only [List.findSome?_eq_none_iff, Dict.get?_eq_some_iff]
  constructor
  · intro h name id hmem
    simpa [Attribute.farRef?] using h _ hmem
  · rintro h ⟨name, a⟩ hmem
    cases a with
    | ref id => simpa [Attribute.farRef?] using h name id hmem
    | _ => rfl

/-- A node is refused just when a number of it or a reference does not fit. -/
theorem refusal?_eq_none_iff : n.refusal? = none ↔
    (∀ k, (n.id = some k ∨ n.parent = some k ∨ n.directChildren = some k ∨
      n.descendants = some k) → k < 0x8000000000000000) ∧
    ∀ name id, n.attributes.get? name = some (.ref id) → id.val < 0x8000000000000000 := by
  rw [← largeNumber?_eq_none_iff, ← findSome?_farRef?_eq_none_iff, refusal?]
  cases n.largeNumber? with
  | some p => simp
  | none => simp only [Option.map_eq_none_iff, true_and]

end ExternalNode

/-! ## Forests -/

namespace Forest

variable {f : Forest} {v : Value}

/-- A forest is refused for its first node that is. -/
theorem toEdn_eq_error_iff {e : EncodingError} :
    toEdn f = .error e ↔ f.findSome? ExternalNode.refusal? = some e := by
  rw [← mapM_eq_error_iff fun n e => ExternalNode.toEdn_eq_error_iff (n := n) (e := e), toEdn]
  cases f.mapM ExternalNode.toEdn <;> simp [Except.map]

theorem toEdn_eq_ok_iff : toEdn f = .ok v ↔
    ∃ items, v = .vector items ∧ f.mapM ExternalNode.toEdn = .ok items := by
  rw [toEdn]
  cases f.mapM ExternalNode.toEdn <;> simp [Except.map, eq_comm]

theorem mapM_ofEdn_of_toEdn {items : List Value} (h : f.mapM ExternalNode.toEdn = .ok items) :
    items.mapM ExternalNode.ofEdn = .ok f := by
  rw [mapM_eq_ok_iff]
  exact (mapM_eq_ok_iff.mp h).flip.imp fun _ _ hn => ExternalNode.ofEdn_of_toEdn hn

theorem mapM_of_ofEdn (h : ofEdn v = .ok f) :
    ∃ items, (v = .vector items ∨ v = .list items) ∧ items.mapM ExternalNode.ofEdn = .ok f := by
  rw [ofEdn, Value.asVector.eq_def] at h
  split at h
  · exact ⟨_, .inl rfl, h⟩
  · exact ⟨_, .inr rfl, h⟩
  · cases h

theorem exists_toEdn_of_ofEdn (h : ofEdn v = .ok f) : ∃ w, toEdn f = .ok w := by
  obtain ⟨items, -, hitems⟩ := mapM_of_ofEdn h
  cases hf : toEdn f with
  | ok w => exact ⟨w, rfl⟩
  | error e =>
    obtain ⟨n, hn, hrefused⟩ := List.exists_of_findSome?_eq_some (toEdn_eq_error_iff.mp hf)
    obtain ⟨w, -, hw⟩ := exists_of_mem_mapM hitems hn
    cases (ExternalNode.refusal?_of_ofEdn hw).symm.trans hrefused

end Forest

/-- Encoding and decoding are inverse to each other. A node is refused for its first number that
does not fit an integer of 64 bits, or else for its first such reference, and for nothing else; its
form reads back as the same node; and a node that was read has a form. The same holds of forests,
of which the first refused node is told, and which may be read from a list as well as a vector. -/
theorem edn_round_trips :
    (∀ n : ExternalNode,
      (∀ e, n.toEdn = .error e ↔ n.refusal? = some e) ∧
      ((∃ e, n.toEdn = .error e) ↔
        (∃ k, (n.id = some k ∨ n.parent = some k ∨ n.directChildren = some k ∨
          n.descendants = some k) ∧ 0x8000000000000000 ≤ k) ∨
        ∃ name id, n.attributes.get? name = some (.ref id) ∧ 0x8000000000000000 ≤ id.val) ∧
      (∀ v, n.toEdn = .ok v → ExternalNode.ofEdn v = .ok n) ∧
      ∀ v, ExternalNode.ofEdn v = .ok n → ∃ w, n.toEdn = .ok w) ∧
    ∀ f : Forest,
      (∀ e, Forest.toEdn f = .error e ↔ f.findSome? ExternalNode.refusal? = some e) ∧
      (∀ v, Forest.toEdn f = .ok v → ∃ items, v = .vector items ∧
        List.Forall₂ (fun n w => n.toEdn = .ok w) f items ∧
        Forest.ofEdn (.vector items) = .ok f ∧ Forest.ofEdn (.list items) = .ok f) ∧
      ∀ v, Forest.ofEdn v = .ok f → ∃ w, Forest.toEdn f = .ok w := by
  refine ⟨fun n => ⟨fun e => ExternalNode.toEdn_eq_error_iff, ?_, fun v =>
    ExternalNode.ofEdn_of_toEdn, fun v h => ?_⟩, fun f => ⟨fun e => Forest.toEdn_eq_error_iff,
      fun v h => ?_, fun v => Forest.exists_toEdn_of_ofEdn⟩⟩
  · simp only [ExternalNode.toEdn_eq_error_iff]
    rw [← Option.ne_none_iff_exists', Ne, ExternalNode.refusal?_eq_none_iff]
    simp only [not_and_or, not_forall, Nat.not_lt, exists_prop]
  · exact ExternalNode.exists_toEdn_iff.mpr (ExternalNode.refusal?_of_ofEdn h)
  · obtain ⟨items, rfl, hitems⟩ := Forest.toEdn_eq_ok_iff.mp h
    have hback := Forest.mapM_ofEdn_of_toEdn hitems
    exact ⟨items, rfl, mapM_eq_ok_iff.mp hitems, hback, hback⟩

end FlatTree
