import FlatTree.Proofs.Legibility
import FlatTree.Proofs.RoundTrip

/-!
# Documents that are written again

A forest that was read from a text can be written, and what is written is read as the same forest
just if every attribute has a name that can be read as a keyword and every double among the values
has a fraction. A name that cannot be read comes from a map behind a namespace for its keys; a
double without a fraction is written as a whole number, and is read as something else.
-/

namespace FlatTree

open Edn

/-! ## Maps under names -/

namespace Edn.Value

/-- A keyword under a name that consists of the characters of atoms is read back, or not at all. -/
theorem reread_name {name : String} (h : ∀ c ∈ name.toList, isAtomChar c = true) :
    (keyword (Name.ofQualified name)).Delimited ∧
      ∀ w, (keyword (Name.ofQualified name)).reread = .ok w ↔
        (∃ n, readName name.toList = .ok n) ∧ w = .keyword (Name.ofQualified name) := by
  have hname := Name.qualified_ofQualified name
  obtain ⟨hdelimited, hreread⟩ := reread_keyword (n := Name.ofQualified name) (hname.symm ▸ h)
  refine ⟨hdelimited, fun w => ?_⟩
  rw [hreread, hname]
  simp only [map_eq_ok_iff, mapError_eq_ok_iff]
  constructor
  · rintro ⟨n, hn, rfl⟩
    have hfold := eq_ofQualified_of_readName hn
    rw [String.ofList_toList] at hfold
    exact ⟨⟨n, hn⟩, congrArg keyword hfold⟩
  · rintro ⟨⟨n, hn⟩, rfl⟩
    have hfold := eq_ofQualified_of_readName hn
    rw [String.ofList_toList] at hfold
    exact ⟨n, hn, congrArg keyword hfold⟩

/-- A map with values under names can be read if all its names and values can. -/
theorem reread_keyedEntries {pairs : List (String × Value)} (hnodup : (pairs.map Prod.fst).Nodup)
    (hnames : ∀ p ∈ pairs, ∀ c ∈ p.1.toList, isAtomChar c = true)
    (hvalues : ∀ p ∈ pairs, p.2.Delimited) :
    (map (keyedEntries pairs)).Delimited ∧ ∀ w, (map (keyedEntries pairs)).reread = .ok w ↔
      (∀ p ∈ pairs, (∃ n, readName p.1.toList = .ok n) ∧ p.2.reread = .ok p.2.renewed) ∧
        w = .map (keyedEntries (pairs.map fun p => (p.1, p.2.renewed))) := by
  have hmem : ∀ {P : Value × Value → Prop}, (∀ e ∈ keyedEntries pairs, P e) ↔
      ∀ p ∈ pairs, P (keyword (Name.ofQualified p.1), p.2) := by
    intro P
    simp only [(keyedEntries_perm hnodup).mem_iff, List.forall_mem_map]
  have hdelimited : ∀ e ∈ keyedEntries pairs, e.1.Delimited ∧ e.2.Delimited :=
    hmem.mpr fun p hp => ⟨(reread_name (hnames p hp)).1, hvalues p hp⟩
  have hkeys : ∀ e ∈ keyedEntries pairs, e.1.reread = .ok e.1.renewed → e.1.renewed = e.1 :=
    hmem.mpr fun p hp hread => (((reread_name (hnames p hp)).2 _).mp hread).2
  refine ⟨(reread_map hdelimited).1, fun w => ?_⟩
  rw [reread_map_eq_ok_iff hdelimited hkeys (keyedEntries_sorted pairs), hmem,
    keyedEntries_map renewed]
  apply and_congr_left
  intro _
  refine forall₂_congr fun p hp => and_congr_left fun _ => ?_
  have hread := (reread_name (hnames p hp)).2
  constructor
  · intro h
    exact ((hread _).mp h).1
  · intro h
    have hok := (hread _).mpr ⟨h, rfl⟩
    exact (renewed_of_reread hok).symm ▸ hok

/-- If names and values can be read, and the values are read back as they are, nothing changes. -/
theorem unchanged_of_reread {pairs : List (String × Value)}
    (hnames : ∀ p ∈ pairs, ∃ n, readName p.1.toList = .ok n)
    (hvalues : ∀ p ∈ pairs, p.2.reread = .ok p.2) :
    (∀ p ∈ pairs, (∃ n, readName p.1.toList = .ok n) ∧ p.2.reread = .ok p.2.renewed) ∧
      map (keyedEntries pairs) = .map (keyedEntries (pairs.map fun p => (p.1, p.2.renewed))) := by
  have hsame : pairs.map (fun p => (p.1, p.2.renewed)) = pairs := by
    refine (List.map_congr_left fun p hp => ?_).trans (List.map_id pairs)
    rw [renewed_of_reread (hvalues p hp)]
    rfl
  refine ⟨fun p hp => ⟨hnames p hp, ?_⟩, by rw [hsame]⟩
  rw [renewed_of_reread (hvalues p hp)]
  exact hvalues p hp

/-- The entries of a map that was read, under the names of its keys. -/
theorem legible_of_asKeywordMap {v : Value} (hv : v.Legible) {d : Dict String Value}
    (h : v.asKeywordMap = .ok d) :
    ∀ p ∈ d.entries, (∀ c ∈ p.1.toList, isAtomChar c = true) ∧ p.2.Legible := by
  cases hv with
  | map hkeys hvalues =>
    rw [asKeywordMap_map] at h
    obtain ⟨named, hnamed, rfl⟩ := map_eq_ok_iff.mp h
    intro p hp
    obtain ⟨e, he, hep⟩ := exists_of_mem_mapM hnamed (Dict.mem_of_mem_ofList hp)
    obtain ⟨n, hn, rfl⟩ := map_eq_ok_iff.mp hep
    exact ⟨hkeys e he n (eq_keyword_of_asKeyword hn), hvalues e he⟩
  | plain hplain =>
    cases v with
    | map entries => cases hplain
    | _ => cases h
  | _ => cases h

end Edn.Value

/-! ## Attributes -/

namespace Attribute

variable {a : Attribute} {v w : Value}

private theorem isTag_ref : refTag.IsTag :=
  ⟨by decide, by decide, List.all_eq_true.mp rfl, rfl⟩

private theorem ofNat_toNat_toInt {i : Int64} (h : 0 ≤ i) : Int64.ofNat i.toInt.toNat = i := by
  have hnonneg : 0 ≤ i.toInt := Int64.le_iff_toInt_le.mp h
  rw [← Int64.ofInt_eq_ofNat, Int.toNat_of_nonneg hnonneg, Int64.ofInt_toInt]

/-- A value that was read is the form of the attribute that it stands for. -/
theorem toEdn_of_ofEdn (hv : v.Legible) (h : ofEdn v = .ok a) : a.toEdn = .ok v := by
  cases v with
  | keyword n =>
    cases h
    cases hv with
    | keyword _ hread =>
      have hfold := eq_ofQualified_of_readName hread
      rw [String.ofList_toList] at hfold
      rw [toEdn, ← hfold]
    | plain hplain => cases hplain
  | tagged tag element =>
    rw [ofEdn.eq_def] at h
    dsimp only at h
    split at h
    · next htag =>
      split at h
      · next i =>
        split at h
        · next hi =>
          cases h
          rw [toEdn, if_pos (toNat_toInt_lt i), ofNat_toNat_toInt hi, htag]
        · cases h
      · cases h
    · cases h
  | _ => cases h <;> rfl

/-- The form of an attribute is read back as it is, unless it is a float. -/
theorem reread_form (h : a.toEdn = .ok v) (hv : v.Legible) : v.Delimited ∧
    (v.reread = .ok v ∨ ∃ x, a = .double x ∧ v = .float x ∧ v.reread = readAtom (floatChars x)) := by
  cases a with
  | boolean b =>
    cases h
    exact ⟨(Value.reread_boolean b).1, .inl (Value.reread_boolean b).2⟩
  | long n =>
    cases h
    exact ⟨(Value.reread_integer n).1, .inl (Value.reread_integer n).2⟩
  | double x =>
    cases h
    exact ⟨(Value.reread_float x).1, .inr ⟨x, rfl, rfl, (Value.reread_float x).2⟩⟩
  | string s =>
    cases h
    exact ⟨(Value.reread_string s).1, .inl (Value.reread_string s).2⟩
  | keyword name =>
    cases h
    cases hv with
    | keyword hscans hread =>
      obtain ⟨hdelimited, hreread⟩ := Value.reread_keyword hscans
      refine ⟨hdelimited, .inl ?_⟩
      rw [hreread, hread]
      rfl
    | plain hplain => cases hplain
  | instant t =>
    cases h
    cases hv with
    | instant hlow hhigh =>
      exact ⟨(Value.reread_instant hlow hhigh).1, .inl (Value.reread_instant hlow hhigh).2⟩
    | plain hplain => cases hplain
  | uuid u =>
    cases h
    exact ⟨(Value.reread_uuid u).1, .inl (Value.reread_uuid u).2⟩
  | ref id =>
    rw [toEdn] at h
    split at h
    · cases h
      obtain ⟨hdelimited, hreread⟩ := Value.reread_tagged isTag_ref (by decide) (by decide)
        (Value.reread_integer (Int64.ofNat id.val))
      exact ⟨hdelimited, .inl hreread⟩
    · cases h

/-- The form of a double with a fraction is read back as it is, and so is that of all others. -/
theorem reread_form_of_hasFraction (h : a.toEdn = .ok v) (hv : v.Legible)
    (ha : ∀ x, a = .double x → x.hasFraction = true) : v.reread = .ok v := by
  obtain ⟨-, hread | ⟨x, rfl, rfl, hread⟩⟩ := reread_form h hv
  · exact hread
  · rw [hread, readAtom_floatChars (ha x rfl)]

/-- No value but a float stands for a double. -/
theorem eq_float_of_ofEdn {x : Binary64} (h : ofEdn w = .ok (.double x)) : w = .float x := by
  cases w with
  | float y =>
    cases h
    rfl
  | tagged tag element =>
    rw [ofEdn.eq_def] at h
    dsimp only at h
    split at h
    · split at h
      · split at h <;> cases h
      · cases h
    · cases h
  | _ => cases h

/-- If the value that is read stands for the same attribute, a double has a fraction. -/
theorem hasFraction_of_reread (h : a.toEdn = .ok v) (hw : v.reread = .ok w)
    (hback : ofEdn w = .ok a) {x : Binary64} (ha : a = .double x) : x.hasFraction = true := by
  subst ha
  cases h
  rw [(Value.reread_float x).2, eq_float_of_ofEdn hback] at hw
  exact readAtom_floatChars_eq_float_iff.mp hw

end Attribute

/-! ## Nodes -/

namespace ExternalNode

/-- The names and values of the attributes are such as can be read. -/
def Clear (attributes : Attributes) : Prop :=
  ∀ p ∈ attributes.entries, (∀ c ∈ p.1.toList, isAtomChar c = true) ∧
    ∀ v, p.2.toEdn = .ok v → v.Legible

/-- Every attribute has the name of a keyword, and every double a fraction. -/
def Lasting (attributes : Attributes) : Prop :=
  ∀ p ∈ attributes.entries, (∃ n, readName p.1.toList = .ok n) ∧
    ∀ x, p.2 = .double x → x.hasFraction = true

/-- Every value of a map of attributes stands for one of them. -/
theorem exists_of_attributesOfEdn {pairs : List (String × Value)}
    (hnodup : (pairs.map Prod.fst).Nodup) {attributes : Attributes}
    (h : attributesOfEdn (.map (Value.keyedEntries pairs)) = .ok attributes) {p : String × Value}
    (hp : p ∈ pairs) : ∃ a, attributes.get? p.1 = some a ∧ Attribute.ofEdn p.2 = .ok a := by
  rw [attributesOfEdn_eq, Value.asKeywordMap_keyedEntries hnodup] at h
  obtain ⟨d, hd, h⟩ := bind_eq_ok_iff.mp h
  cases hd
  obtain ⟨named, hnamed, rfl⟩ := map_eq_ok_iff.mp h
  have hkeys : (named.map Prod.fst).Nodup := by
    rw [map_fst_of_mapM (fun _ _ hvalue => (namedAttribute_eq_ok_iff.mp hvalue).1) hnamed]
    exact Dict.nodup_keys _
  obtain ⟨q, hq, hpq⟩ := exists_mem_of_mapM hnamed
    ((Dict.entries_ofList_perm hnodup).symm.subset hp)
  obtain ⟨hname, hvalue⟩ := namedAttribute_eq_ok_iff.mp hpq
  exact ⟨q.2, (Dict.get?_ofList hkeys).mpr (hname ▸ hq), hvalue⟩

theorem reread_attributes {attributes : Attributes} (hclear : Clear attributes) {v : Value}
    (h : attributesToEdn attributes = .ok v) : v.Delimited ∧
      (Lasting attributes → v.reread = .ok v) ∧
      ∀ w, v.reread = .ok w → attributesOfEdn w = .ok attributes → Lasting attributes := by
  rw [attributesToEdn_eq] at h
  obtain ⟨pairs, hpairs, rfl⟩ := map_eq_ok_iff.mp h
  have hform : ∀ p ∈ pairs, ∃ q ∈ attributes.entries, p.1 = q.1 ∧ q.2.toEdn = .ok p.2 := by
    intro p hp
    obtain ⟨q, hq, hqp⟩ := exists_of_mem_mapM hpairs hp
    exact ⟨q, hq, namedForm_eq_ok_iff.mp hqp⟩
  have hnames : pairs.map Prod.fst = attributes.keys :=
    map_fst_of_mapM (fun _ _ hform => (namedForm_eq_ok_iff.mp hform).1) hpairs
  have hnodup : (pairs.map Prod.fst).Nodup := hnames ▸ attributes.nodup_keys
  obtain ⟨hdelimited, hreread⟩ := Value.reread_keyedEntries hnodup
    (fun p hp => by
      obtain ⟨q, hq, hname, -⟩ := hform p hp
      exact hname ▸ (hclear q hq).1)
    (fun p hp => by
      obtain ⟨q, hq, -, hvalue⟩ := hform p hp
      exact (Attribute.reread_form hvalue ((hclear q hq).2 _ hvalue)).1)
  refine ⟨hdelimited, fun hlasting => ?_, fun w hw hback => ?_⟩
  · have hself : ∀ p ∈ pairs, p.2.reread = .ok p.2 := by
      intro p hp
      obtain ⟨q, hq, -, hvalue⟩ := hform p hp
      exact Attribute.reread_form_of_hasFraction hvalue ((hclear q hq).2 _ hvalue) (hlasting q hq).2
    refine (hreread _).mpr (Value.unchanged_of_reread (fun p hp => ?_) hself)
    obtain ⟨q, hq, hname, -⟩ := hform p hp
    exact hname ▸ (hlasting q hq).1
  · obtain ⟨hall, rfl⟩ := (hreread w).mp hw
    have hnodup' : ((pairs.map fun p => (p.1, p.2.renewed)).map Prod.fst).Nodup := by
      rwa [List.map_map]
    intro q hq
    obtain ⟨p, hp, hqp⟩ := exists_mem_of_mapM hpairs hq
    obtain ⟨hname, hvalue⟩ := namedForm_eq_ok_iff.mp hqp
    obtain ⟨a, ha, hback⟩ := exists_of_attributesOfEdn hnodup' hback
      (List.mem_map_of_mem (f := fun p => (p.1, p.2.renewed)) hp)
    have heq : attributes.get? q.1 = some q.2 := Dict.get?_eq_some_iff.mpr hq
    rw [← hname, ha, Option.some.injEq] at heq
    refine ⟨hname ▸ (hall p hp).1, fun x hx => ?_⟩
    exact Attribute.hasFraction_of_reread hvalue (hall p hp).2 (heq ▸ hback) hx

/-- Numbers do not change the attributes. -/
theorem attributes_of_numbers {entries : Dict String Value} {attributes : Attributes}
    {n : ExternalNode} (h : (do
      let id ← numberOfEdn entries "id"
      let parent ← numberOfEdn entries "parent"
      let directChildren ← numberOfEdn entries "direct-children-count"
      let descendants ← numberOfEdn entries "children-count"
      pure ⟨id, parent, attributes, directChildren, descendants⟩) = Except.ok n) :
    n.attributes = attributes := by
  obtain ⟨id, -, h⟩ := bind_eq_ok_iff.mp h
  obtain ⟨parent, -, h⟩ := bind_eq_ok_iff.mp h
  obtain ⟨directChildren, -, h⟩ := bind_eq_ok_iff.mp h
  obtain ⟨descendants, -, h⟩ := bind_eq_ok_iff.mp h
  cases h
  rfl

/-- A node has numbers, and attributes. -/
theorem mem_nodePairs {n : ExternalNode} {attributes : Value} {p : String × Value}
    (h : p ∈ n.nodePairs attributes) : (∃ i, p.2 = .integer i) ∨ p.2 = attributes := by
  rcases List.mem_append.mp h with h | h
  · obtain ⟨k, -, hk⟩ := mem_numberPairs.mp h
    exact .inl ⟨_, hk.symm⟩
  · rw [List.mem_singleton.mp h]
    exact .inr rfl

theorem reread_node {n : ExternalNode} (hclear : Clear n.attributes) {v : Value}
    (h : n.toEdn = .ok v) : v.Delimited ∧ (Lasting n.attributes → v.reread = .ok v) ∧
      ∀ w, v.reread = .ok w → ofEdn w = .ok n → Lasting n.attributes := by
  obtain ⟨-, attributes, hattributes, rfl⟩ := toEdn_eq_ok_iff.mp h
  obtain ⟨hattrs, hlasts, hlasting⟩ := reread_attributes hclear hattributes
  have hnodup := n.nodup_nodePairs attributes
  have hknown : ∀ name ∈ knownKeys,
      name.toList ≠ [] ∧ '/' ∉ name.toList ∧ ':' ∉ name.toList := by decide
  have hatoms : (knownKeys.all fun name => name.toList.all isAtomChar) = true := rfl
  have hkey : ∀ p ∈ n.nodePairs attributes, p.1 ∈ knownKeys := fun p =>
    mem_knownKeys_of_mem_nodePairs
  have hnames : ∀ p ∈ n.nodePairs attributes, ∀ c ∈ p.1.toList, isAtomChar c = true := fun p hp =>
    List.all_eq_true.mp (List.all_eq_true.mp hatoms p.1 (hkey p hp))
  have hread : ∀ p ∈ n.nodePairs attributes, ∃ m, readName p.1.toList = .ok m := by
    intro p hp
    obtain ⟨hne, hslash, hcolon⟩ := hknown p.1 (hkey p hp)
    exact ⟨_, readName_of_notMem hne hslash hcolon⟩
  have hvalues : ∀ p ∈ n.nodePairs attributes, p.2.Delimited := by
    intro p hp
    rcases mem_nodePairs hp with ⟨i, hi⟩ | hp
    · rw [hi]
      exact (Value.reread_integer i).1
    · rw [hp]
      exact hattrs
  obtain ⟨hdelimited, hreread⟩ := Value.reread_keyedEntries hnodup hnames hvalues
  refine ⟨hdelimited, fun hall => ?_, fun w hw hback => ?_⟩
  · have hself : ∀ p ∈ n.nodePairs attributes, p.2.reread = .ok p.2 := by
      intro p hp
      rcases mem_nodePairs hp with ⟨i, hi⟩ | hp
      · rw [hi]
        exact (Value.reread_integer i).2
      · rw [hp]
        exact hlasts hall
    exact (hreread _).mpr (Value.unchanged_of_reread hread hself)
  · obtain ⟨hall, rfl⟩ := (hreread w).mp hw
    have hnodup' : (((n.nodePairs attributes).map fun p => (p.1, p.2.renewed)).map Prod.fst).Nodup := by
      rwa [List.map_map]
    have hmem : ("attrs", attributes) ∈ n.nodePairs attributes :=
      List.mem_append_right _ (List.mem_singleton_self _)
    have hget : (Dict.ofList ((n.nodePairs attributes).map fun p => (p.1, p.2.renewed))).get?
        "attrs" = some attributes.renewed :=
      (Dict.get?_ofList hnodup').mpr (List.mem_map_of_mem hmem)
    rw [ofEdn, Value.asKeywordMap_keyedEntries hnodup'] at hback
    obtain ⟨d, hd, hback⟩ := bind_eq_ok_iff.mp hback
    cases hd
    obtain ⟨-, -, hback⟩ := bind_eq_ok_iff.mp hback
    rw [hget] at hback
    obtain ⟨kept, hkept, hback⟩ := bind_eq_ok_iff.mp hback
    exact hlasting _ (hall _ hmem).2 (attributes_of_numbers hback ▸ hkept)

/-! ### What was read -/

private theorem clear_of_attributesOfEdn {attributes : Attributes} {v : Value} (hv : v.Legible)
    (h : attributesOfEdn v = .ok attributes) : Clear attributes := by
  rw [attributesOfEdn_eq] at h
  obtain ⟨d, hd, h⟩ := bind_eq_ok_iff.mp h
  obtain ⟨named, hnamed, rfl⟩ := map_eq_ok_iff.mp h
  intro p hp
  obtain ⟨q, hq, hqp⟩ := exists_of_mem_mapM hnamed (Dict.mem_of_mem_ofList hp)
  obtain ⟨hname, hvalue⟩ := namedAttribute_eq_ok_iff.mp hqp
  obtain ⟨hscans, hlegible⟩ := Value.legible_of_asKeywordMap hv hd q hq
  refine ⟨hname ▸ hscans, fun u hu => ?_⟩
  have hform := Attribute.toEdn_of_ofEdn hlegible hvalue
  rw [hform] at hu
  cases hu
  exact hlegible

theorem clear_of_ofEdn {n : ExternalNode} {v : Value} (hv : v.Legible) (h : ofEdn v = .ok n) :
    Clear n.attributes := by
  rw [ofEdn] at h
  obtain ⟨entries, hentries, h⟩ := bind_eq_ok_iff.mp h
  obtain ⟨-, -, h⟩ := bind_eq_ok_iff.mp h
  dsimp only at h
  split at h
  · next u hu =>
    obtain ⟨attributes, hattributes, h⟩ := bind_eq_ok_iff.mp h
    have hmem := Dict.get?_eq_some_iff.mp hu
    rw [attributes_of_numbers h]
    exact clear_of_attributesOfEdn (Value.legible_of_asKeywordMap hv hentries _ hmem).2 hattributes
  · have hempty : n.attributes = Dict.empty := attributes_of_numbers h
    rw [hempty]
    exact fun p hp => absurd hp List.not_mem_nil

end ExternalNode

/-! ## Forests -/

namespace Forest

variable {f : Forest}

theorem clear_of_ofEdn {v : Value} (hv : v.Legible) (h : ofEdn v = .ok f) :
    ∀ n ∈ f, ExternalNode.Clear n.attributes := by
  obtain ⟨items, hitems, hf⟩ := mapM_of_ofEdn h
  have hlegible : ∀ u ∈ items, u.Legible := by
    rcases hitems with rfl | rfl
    · cases hv with
      | vector hall => exact hall
      | plain hplain => cases hplain
    · cases hv with
      | list hall => exact hall
      | plain hplain => cases hplain
  intro n hn
  obtain ⟨u, hu, hun⟩ := exists_of_mem_mapM hf hn
  exact ExternalNode.clear_of_ofEdn (hlegible u hu) hun

/-- Node by node, what is written for a forest is read as the same forest just if its attributes
last. -/
theorem reread_items (hclear : ∀ n ∈ f, ExternalNode.Clear n.attributes) {items : List Value}
    (h : f.mapM ExternalNode.toEdn = .ok items) :
    (∃ w, (Value.vector items).reread = .ok w ∧ ofEdn w = .ok f) ↔
      ∀ n ∈ f, ExternalNode.Lasting n.attributes := by
  have hnode : ∀ v ∈ items, ∃ n ∈ f, n.toEdn = .ok v := fun v => exists_of_mem_mapM h
  have hdelimited : ∀ v ∈ items, v.Delimited := by
    intro v hv
    obtain ⟨n, hn, hnv⟩ := hnode v hv
    exact (ExternalNode.reread_node (hclear n hn) hnv).1
  simp only [Value.reread_vector_eq_ok_iff hdelimited]
  constructor
  · rintro ⟨_, ⟨hall, rfl⟩, hback⟩
    have hforms := mapM_eq_ok_iff.mp h
    have hvalues := mapM_eq_ok_iff.mp hback
    rw [List.forall₂_map_left_iff] at hvalues
    clear h hback hnode hdelimited
    induction hforms with
    | nil => exact fun n hn => absurd hn List.not_mem_nil
    | cons hn _ ih =>
      obtain ⟨hv, hvs⟩ := List.forall_mem_cons.mp hall
      obtain ⟨hc, hcs⟩ := List.forall_mem_cons.mp hclear
      cases hvalues with
      | cons hb hbs =>
        exact List.forall_mem_cons.mpr
          ⟨(ExternalNode.reread_node hc hn).2.2 _ hv hb, ih hcs hvs hbs⟩
  · intro hall
    have hself : ∀ v ∈ items, v.reread = .ok v := by
      intro v hv
      obtain ⟨n, hn, hnv⟩ := hnode v hv
      exact (ExternalNode.reread_node (hclear n hn) hnv).2.1 (hall n hn)
    have hsame : items.map Value.renewed = items :=
      (List.map_congr_left fun v hv => Value.renewed_of_reread (hself v hv)).trans (List.map_id items)
    refine ⟨.vector items, ⟨fun v hv => ?_, by rw [hsame]⟩, mapM_ofEdn_of_toEdn h⟩
    rw [Value.renewed_of_reread (hself v hv)]
    exact hself v hv

private theorem read_of_parse {text : String} (h : parse text = .ok f) :
    ∃ v, Value.read text = .ok v ∧ ofEdn v = .ok f := by
  rw [parse] at h
  split at h
  · cases h
  · next v hv =>
    split at h
    · cases h
    · next f' hf =>
      cases h
      exact ⟨v, hv, hf⟩

/-- A text that was written is read as what is read in place of the value. -/
theorem parse_text {v : Value} :
    parse v.text = .ok f ↔ ∃ w, v.reread = .ok w ∧ ofEdn w = .ok f := by
  have hread : Value.read v.text = v.reread := by
    rw [Value.read, Value.text, String.toList_ofList, Value.reread, readOne]
    cases readValue v.chars <;> rfl
  rw [parse, hread]
  cases v.reread with
  | error e => simp
  | ok w =>
    dsimp only
    cases hw : ofEdn w <;> simp [hw]

end Forest

/-- A forest that was read from a text can be written. What is written is read as the same forest
again just if each attribute has the name of a keyword and each double a fraction. -/
theorem parse_emit {text : String} {f : Forest} (h : Forest.parse text = .ok f) :
    ∃ written, Forest.emit f = .ok written ∧ (Forest.parse written = .ok f ↔
      ∀ n ∈ f, ∀ name a, n.attributes.get? name = some a →
        (∃ k, readName name.toList = .ok k) ∧ ∀ x, a = .double x → x.hasFraction = true) := by
  obtain ⟨v, hread, hv⟩ := Forest.read_of_parse h
  have hclear := Forest.clear_of_ofEdn (legible_of_read hread) hv
  obtain ⟨w, hw⟩ := Forest.exists_toEdn_of_ofEdn hv
  obtain ⟨items, rfl, hitems⟩ := Forest.toEdn_eq_ok_iff.mp hw
  refine ⟨(Value.vector items).text, by rw [Forest.emit, hw]; rfl, ?_⟩
  rw [Forest.parse_text, Forest.reread_items hclear hitems]
  apply forall₂_congr
  intro n _
  constructor
  · intro hall name a ha
    exact hall (name, a) (Dict.get?_eq_some_iff.mp ha)
  · rintro hall ⟨name, a⟩ ha
    exact hall name a (Dict.get?_eq_some_iff.mpr ha)

/-- A double with a fraction lasts. -/
theorem parse_emit_fraction :
    let f : Forest := [⟨none, none, Dict.ofList [("x", .double ⟨0x3ff8000000000000⟩)], none, none⟩]
    Forest.parse "[\x7b:attrs \x7b:x 1.5\x7d\x7d]" = .ok f ∧
      ∃ written, Forest.emit f = .ok written ∧ Forest.parse written = .ok f := by
  intro f
  have hparse : Forest.parse "[\x7b:attrs \x7b:x 1.5\x7d\x7d]" = .ok f :=
    toOption_eq_some_iff.mp (by decide +kernel)
  obtain ⟨written, hemit, hlasts⟩ := parse_emit hparse
  refine ⟨hparse, written, hemit, hlasts.mpr fun n hn name a ha => ?_⟩
  rw [List.mem_singleton.mp hn] at ha
  have hmem : (name, a) ∈ [("x", Attribute.double ⟨0x3ff8000000000000⟩)] :=
    Dict.get?_eq_some_iff.mp ha
  cases List.mem_singleton.mp hmem
  refine ⟨⟨_, readName_of_notMem (by decide) (by decide) (by decide)⟩, ?_⟩
  rintro x ⟨⟩
  rfl

/-- A double without one is written as a whole number, and read as an integer. -/
theorem parse_emit_whole :
    let forest (a : Attribute) : Forest := [⟨none, none, Dict.ofList [("x", a)], none, none⟩]
    let one := Attribute.double ⟨0x3ff0000000000000⟩
    Forest.parse "[\x7b:attrs \x7b:x 1.0\x7d\x7d]" = .ok (forest one) ∧
      Forest.emit (forest one) = .ok "[\x7b:attrs \x7b:x 1\x7d\x7d]" ∧
      Forest.parse "[\x7b:attrs \x7b:x 1\x7d\x7d]" = .ok (forest (.long 1)) ∧
      forest (.long 1) ≠ forest one := by
  refine ⟨toOption_eq_some_iff.mp ?_, toOption_eq_some_iff.mp ?_, toOption_eq_some_iff.mp ?_, ?_⟩
  · decide +kernel
  · decide +kernel
  · decide +kernel
  · decide +kernel

end FlatTree
