import FlatTree.External.Json
import FlatTree.Proofs.Entries
import FlatTree.Proofs.JsonDocuments
import FlatTree.Proofs.Literals

/-!
# Forests read from their text

The compact text of a forest loses nothing of nodes whose numbers fit 64 bits and whose attributes
are neither floats nor instants: the forest is read back from it. A float may have no form at all,
and an instant is read leniently.
-/

namespace FlatTree

open Json

/-- A list is read back if each of its members is. -/
theorem mapM_map_eq_some {α β : Type} {write : α → β} {read? : β → Option α} {l : List α}
    (h : ∀ a ∈ l, read? (write a) = some a) : (l.map write).mapM read? = some l := by
  induction l with
  | nil => rfl
  | cons a l ih =>
    obtain ⟨ha, hl⟩ := List.forall_mem_cons.mp h
    rw [List.map_cons, List.mapM_cons, ha, ih hl]
    rfl

/-- A fold over what was written goes well if each of its steps does. -/
theorem foldlM_map_eq_some {α β σ : Type} {write : α → β} {step : σ → β → Option σ}
    {next : σ → α → σ} {l : List α} (h : ∀ s, ∀ a ∈ l, step s (write a) = some (next s a)) (s : σ) :
    (l.map write).foldlM step s = some (l.foldl next s) := by
  induction l generalizing s with
  | nil => rfl
  | cons a l ih =>
    rw [List.map_cons, List.foldlM_cons, h s a List.mem_cons_self]
    exact ih (fun s a ha => h s a (List.mem_cons_of_mem _ ha)) (next s a)

namespace Attribute

/-- The attribute is neither a float nor an instant, and refers to a node only by 64 bits. -/
def Kept : Attribute → Prop
  | .double _ => False
  | .instant _ => False
  | .ref id => id.val < 0x10000000000000000
  | _ => True

theorem reread_member (kind : String) {d : Document} (h : d.Reread) : (member kind d).Reread := by
  refine Document.reread_object fun m hm => ?_
  rw [List.mem_singleton.mp hm]
  exact ⟨⟨kind, rfl⟩, h⟩

theorem reread_toJson {a : Attribute} (h : a.Kept) : a.toJson.Reread := by
  cases a with
  | boolean b => exact reread_member "Boolean" (Document.reread_boolean b)
  | long n => exact reread_member "Long" (Document.reread_number (whole_ofInt n.toInt))
  | double x => exact h.elim
  | string s => exact reread_member "String" (Document.reread_ofText s)
  | keyword name => exact reread_member "Keyword" (Document.reread_ofText name)
  | instant t => exact h.elim
  | uuid u => exact reread_member "Uuid" (Document.reread_ofText _)
  | ref id => exact reread_member "Ref" (Document.reread_number (whole_ofNat id.val))

theorem ofJson?_member (kind : String) (d : Document) :
    ofJson? (member kind d) = ofMember? kind d := by
  simp only [ofJson?, member, textOf?_escape]
  rfl

theorem ofJson?_toJson {a : Attribute} (h : a.Kept) : ofJson? a.toJson = some a := by
  cases a with
  | boolean b => exact ofJson?_member "Boolean" _
  | long n =>
    refine (ofJson?_member "Long" _).trans ?_
    simp only [ofMember?, toInt64?_ofInt]
    rfl
  | double x => exact h.elim
  | string s =>
    refine (ofJson?_member "String" _).trans ?_
    simp only [ofMember?, Document.ofText, textOf?_escape]
    rfl
  | keyword name =>
    refine (ofJson?_member "Keyword" _).trans ?_
    simp only [ofMember?, Document.ofText, textOf?_escape]
    rfl
  | instant t => exact h.elim
  | uuid u =>
    refine (ofJson?_member "Uuid" _).trans ?_
    simp only [ofMember?, Document.ofText, unescape?_escape, String.toList_ofList, bind,
      Option.bind, Uuid.read?_text]
    rfl
  | ref id =>
    refine (ofJson?_member "Ref" _).trans ?_
    simp only [ofMember?, toNat64?_ofNat h]
    rfl

end Attribute

theorem reread_attributesToJson {attributes : Attributes}
    (h : ∀ e ∈ attributes.entries, e.2.Kept) : (attributesToJson attributes).Reread := by
  refine Document.reread_object fun m hm => ?_
  obtain ⟨e, he, rfl⟩ := List.mem_map.mp hm
  exact ⟨⟨e.1, rfl⟩, Attribute.reread_toJson (h e he)⟩

theorem attributesOfJson?_attributesToJson {attributes : Attributes}
    (h : ∀ e ∈ attributes.entries, e.2.Kept) :
    attributesOfJson? (attributesToJson attributes) = some attributes := by
  have hall : some (attributes.entries.foldl (fun d e => d.put e.1 e.2) Dict.empty) =
      some attributes := congrArg some (Dict.ofList_entries attributes)
  refine (foldlM_map_eq_some (fun d e he => ?_) Dict.empty).trans hall
  dsimp only
  rw [textOf?_escape, Attribute.ofJson?_toJson (h e he)]
  rfl

namespace ExternalNode

/-- The numbers of the node are numbers of 64 bits, and its attributes are kept. -/
structure Kept (n : ExternalNode) : Prop where
  id : ∀ x ∈ n.id, x < 0x10000000000000000
  parent : ∀ x ∈ n.parent, x < 0x10000000000000000
  attributes : ∀ e ∈ n.attributes.entries, e.2.Kept
  directChildren : ∀ x ∈ n.directChildren, x < 0x10000000000000000
  descendants : ∀ x ∈ n.descendants, x < 0x10000000000000000

theorem reread_numberToJson (n : Option Nat) : (numberToJson n).Reread := by
  cases n with
  | none => exact Document.reread_null
  | some n => exact Document.reread_number (whole_ofNat n)

theorem numberOfJson?_numberToJson {n : Option Nat} (h : ∀ x ∈ n, x < 0x10000000000000000) :
    numberOfJson? (numberToJson n) = some n := by
  cases n with
  | none => rfl
  | some n =>
    rw [numberToJson, numberOfJson?, toNat64?_ofNat (h n rfl)]
    rfl

/-- The members of a node by their names, with the counts that are there. -/
def fields (n : ExternalNode) : List (String × Document) :=
  [("id", numberToJson n.id), ("parent", numberToJson n.parent),
    ("attrs", attributesToJson n.attributes)] ++
    (n.directChildren.map fun c => ("direct_children_count", numberToJson (some c))).toList ++
    (n.descendants.map fun c => ("children_count", numberToJson (some c))).toList

theorem toJson_eq (n : ExternalNode) :
    n.toJson = .object (n.fields.map fun e => (escape e.1, e.2)) := by
  obtain ⟨id, parent, attributes, directChildren, descendants⟩ := n
  cases directChildren <;> cases descendants <;> rfl

private theorem reread_of_mem_fields {n : ExternalNode} (h : n.Kept) {e : String × Document}
    (he : e ∈ n.fields) : e.2.Reread := by
  simp only [fields, List.mem_append, List.mem_cons, List.not_mem_nil, or_false, Option.mem_toList,
    Option.map_eq_some_iff] at he
  rcases he with ((rfl | rfl | rfl) | ⟨c, -, rfl⟩) | ⟨c, -, rfl⟩
  · exact reread_numberToJson _
  · exact reread_numberToJson _
  · exact reread_attributesToJson h.attributes
  · exact reread_numberToJson (some c)
  · exact reread_numberToJson (some c)

theorem reread_toJson {n : ExternalNode} (h : n.Kept) : n.toJson.Reread := by
  rw [toJson_eq]
  refine Document.reread_object fun m hm => ?_
  obtain ⟨e, he, rfl⟩ := List.mem_map.mp hm
  exact ⟨⟨e.1, rfl⟩, reread_of_mem_fields h he⟩

/-- Each field is found under its name, a count only if it is there. -/
theorem field?_fields (n : ExternalNode) :
    field? n.fields "id" = some (some (numberToJson n.id)) ∧
      field? n.fields "parent" = some (some (numberToJson n.parent)) ∧
      field? n.fields "attrs" = some (some (attributesToJson n.attributes)) ∧
      field? n.fields "direct_children_count" =
        some (n.directChildren.map fun c => numberToJson (some c)) ∧
      field? n.fields "children_count" =
        some (n.descendants.map fun c => numberToJson (some c)) := by
  obtain ⟨id, parent, attributes, directChildren, descendants⟩ := n
  cases directChildren <;> cases descendants <;> exact ⟨rfl, rfl, rfl, rfl, rfl⟩

private theorem fieldOr?_count {n : Option Nat} (h : ∀ x ∈ n, x < 0x10000000000000000) :
    fieldOr? none numberOfJson? (n.map fun c => numberToJson (some c)) = some n := by
  cases n with
  | none => rfl
  | some c => exact numberOfJson?_numberToJson h

theorem ofFields?_fields {n : ExternalNode} (h : n.Kept) :
    ofFields? (some (numberToJson n.id)) (some (numberToJson n.parent))
      (some (attributesToJson n.attributes)) (n.directChildren.map fun c => numberToJson (some c))
      (n.descendants.map fun c => numberToJson (some c)) = some n := by
  rw [ofFields?, fieldOr?_count h.directChildren, fieldOr?_count h.descendants]
  simp only [fieldOr?, numberOfJson?_numberToJson h.id, numberOfJson?_numberToJson h.parent,
    attributesOfJson?_attributesToJson h.attributes]
  rfl

theorem ofJson?_toJson {n : ExternalNode} (h : n.Kept) : ofJson? n.toJson = some n := by
  obtain ⟨hid, hparent, hattributes, hdirect, hdescendants⟩ := field?_fields n
  rw [toJson_eq, ofJson?, mapM_map_eq_some]
  · simp only [bind, Option.bind, hid, hparent, hattributes, hdirect, hdescendants,
      ofFields?_fields h]
  · intro e _
    dsimp only
    rw [textOf?_escape]
    rfl

end ExternalNode

namespace Forest

theorem reread_toJson {f : Forest} (h : ∀ n ∈ f, n.Kept) : (toJson f).Reread := by
  refine Document.reread_array fun d hd => ?_
  obtain ⟨n, hn, rfl⟩ := List.mem_map.mp hd
  exact ExternalNode.reread_toJson (h n hn)

theorem ofJson?_toJson {f : Forest} (h : ∀ n ∈ f, n.Kept) : ofJson? (toJson f) = some f := by
  exact mapM_map_eq_some fun n hn => ExternalNode.ofJson?_toJson (h n hn)

/-- The compact text of a forest loses nothing: reading it gives back the forest, if each of its
nodes is kept. -/
theorem json_text_loses_nothing {f : Forest} (h : ∀ n ∈ f, n.Kept) :
    parseJson? (emitJson f) = some f := by
  rw [parseJson?, emitJson, (reread_toJson h).read?_text]
  exact ofJson?_toJson h

/-- A node with the largest numbers, the least integer, and names and texts that need escapes; and
one that has nothing. -/
theorem json_text_loses_nothing_escapes :
    let attributes : Attributes := Dict.ofList [("a \"b\" \\c", .string "\x00\n\x1f\x7fé"),
      ("", .keyword "a/b\t"), ("least", .long Int64.minValue), ("flag", .boolean false),
      ("far", .ref ⟨0xffffffffffffffff⟩), ("uuid", .uuid ⟨0⟩)]
    let f : Forest := [⟨some 0xffffffffffffffff, none, attributes, some 0, none⟩,
      .bare none (some 7)]
    (∀ n ∈ f, n.Kept) ∧ parseJson? (emitJson f) = some f := by
  intro attributes f
  have hattributes : ∀ e ∈ attributes.entries, e.2.Kept := by
    intro e he
    have hmem := Dict.mem_of_mem_ofList he
    simp only [List.mem_cons, List.not_mem_nil, or_false] at hmem
    rcases hmem with rfl | rfl | rfl | rfl | rfl | rfl
    · trivial
    · trivial
    · trivial
    · trivial
    · exact (by decide : 0xffffffffffffffff < 0x10000000000000000)
    · trivial
  have h : ∀ n ∈ f, n.Kept := by
    intro n hn
    simp only [f, List.mem_cons, List.not_mem_nil, or_false] at hn
    rcases hn with rfl | rfl
    · exact ⟨by simp, by simp, hattributes, by simp, by simp⟩
    · have hnone : ∀ e ∈ (Dict.empty : Attributes).entries, e.2.Kept := by simp [Dict.empty]
      exact ⟨by simp [ExternalNode.bare], by simp [ExternalNode.bare], hnone,
        by simp [ExternalNode.bare], by simp [ExternalNode.bare]⟩
  exact ⟨h, json_text_loses_nothing h⟩

end Forest

end FlatTree
