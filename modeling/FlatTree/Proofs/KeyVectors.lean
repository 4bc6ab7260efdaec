import FlatTree.Proofs.KeyTexts

/-!
# Keys from several texts

Several strings and keywords are read as one text with commas between. No entry runs into the next
one: a comma between two texts only puts their keys one after the other, so the keys of a vector are
those of its entries, whatever stands in them.
-/

namespace FlatTree

/-! ## Texts one after the other -/

private theorem forall₂_append_left_iff {α β : Type} {R : α → β → Prop} {l₁ l₂ : List α}
    {l : List β} : List.Forall₂ R (l₁ ++ l₂) l ↔
      ∃ m₁ m₂, List.Forall₂ R l₁ m₁ ∧ List.Forall₂ R l₂ m₂ ∧ l = m₁ ++ m₂ := by
  induction l₁ generalizing l with
  | nil => simp
  | cons x l₁ ih =>
    simp only [List.cons_append, List.forall₂_cons_left_iff, ih]
    constructor
    · rintro ⟨y, _, hxy, ⟨m₁, m₂, h₁, h₂, rfl⟩, rfl⟩
      exact ⟨y :: m₁, m₂, ⟨y, m₁, hxy, h₁, rfl⟩, h₂, rfl⟩
    · rintro ⟨_, m₂, ⟨y, m₁, hxy, h₁, rfl⟩, h₂, rfl⟩
      exact ⟨y, m₁ ++ m₂, hxy, ⟨m₁, m₂, h₁, h₂, rfl⟩, rfl⟩

/-- Two relations between members, taken one after the other. -/
theorem exists_forall₂_iff {α β γ : Type} {R : α → β → Prop} {S : β → γ → Prop} {l : List α}
    {n : List γ} : (∃ m, List.Forall₂ R l m ∧ List.Forall₂ S m n) ↔
      List.Forall₂ (fun x z => ∃ y, R x y ∧ S y z) l n := by
  constructor
  · rintro ⟨m, hm, hn⟩
    induction hm generalizing n with
    | nil =>
      cases hn
      exact .nil
    | cons hxy _ ih =>
      cases hn with
      | cons hyz hn => exact .cons ⟨_, hxy, hyz⟩ (ih hn)
  · intro h
    induction h with
    | nil => exact ⟨[], .nil, .nil⟩
    | cons hxz _ ih =>
      obtain ⟨y, hxy, hyz⟩ := hxz
      obtain ⟨m, hm, hn⟩ := ih
      exact ⟨y :: m, .cons hxy hm, .cons hyz hn⟩

namespace Settings

open Edn SortKey

/-- The parts of two texts stay what they are when the texts are put together. -/
theorem orderOfText_comma {a b : String} {keys : List SortKey} :
    orderOfText (a ++ "," ++ b) = .ok keys ↔
      ∃ ks ls, orderOfText a = .ok ks ∧ orderOfText b = .ok ls ∧ keys = ks ++ ls := by
  have hparts : (a ++ "," ++ b).toList.splitOn ',' =
      a.toList.splitOn ',' ++ b.toList.splitOn ',' := by
    have htext : (a ++ "," ++ b).toList = a.toList ++ ',' :: b.toList := by simp
    rw [htext, List.splitOn_append_cons_self]
  simp only [orderOfText_eq_ok_iff, Spelled, hparts, forall₂_append_left_iff]

private theorem orderOfText_empty (keys : List SortKey) : orderOfText "" ≠ .ok keys := nofun

/-- Texts with commas between are read one by one. -/
theorem orderOfText_intercalate {names : List String} (hne : names ≠ []) {keys : List SortKey} :
    orderOfText (",".intercalate names) = .ok keys ↔
      ∃ kss, List.Forall₂ (fun name ks => orderOfText name = .ok ks) names kss ∧
        keys = kss.flatten := by
  induction names generalizing keys with
  | nil => exact absurd rfl hne
  | cons name names ih =>
    cases names with
    | nil => simp [List.forall₂_cons_left_iff]
    | cons next names =>
      rw [String.intercalate_cons_of_ne_nil (List.cons_ne_nil _ _), orderOfText_comma]
      simp only [ih (List.cons_ne_nil _ _), List.forall₂_cons_left_iff (a := name)]
      constructor
      · rintro ⟨ks, _, hks, ⟨kss, hkss, rfl⟩, rfl⟩
        exact ⟨ks :: kss, ⟨ks, kss, hks, hkss, rfl⟩, rfl⟩
      · rintro ⟨_, ⟨ks, kss, hks, hkss, rfl⟩, rfl⟩
        exact ⟨ks, kss.flatten, hks, ⟨kss, hkss, rfl⟩, rfl⟩

/-! ## Values that stand for keys -/

/-- What the entries of a vector of keys are called: a string as it stands, and a keyword by its
name, the namespace folded in. -/
inductive EntryName : Value → String → Prop
  | string (s : String) : EntryName (.string s) s
  | keyword (n : Name) : EntryName (.keyword n) n.qualified

/-- The text that stands for keys: a string, the name of a keyword, or the names of several of them
with commas between. -/
inductive OrderText : Value → String → Prop
  | one {v : Value} {name : String} : EntryName v name → OrderText v name
  | vector {items : List Value} {names : List String} : List.Forall₂ EntryName items names →
      OrderText (.vector items) (",".intercalate names)
  | list {items : List Value} {names : List String} : List.Forall₂ EntryName items names →
      OrderText (.list items) (",".intercalate names)

theorem atKey_eq_ok_iff {α : Type} {key : String} {x : Except DecodingError α} {a : α} :
    atKey key x = .ok a ↔ x = .ok a := by
  cases x <;> simp [atKey]

theorem sortKeyName_eq_ok_iff {v : Value} {name : String} :
    sortKeyName v = .ok name ↔ EntryName v name := by
  constructor
  · intro h
    cases v <;> cases h
    · exact .string _
    · exact .keyword _
  · rintro (s | n) <;> rfl

theorem mapM_sortKeyName_eq_ok_iff {items : List Value} {names : List String} :
    items.mapM sortKeyName = .ok names ↔ List.Forall₂ EntryName items names := by
  simp only [mapM_eq_ok_iff, sortKeyName_eq_ok_iff]

theorem decodeOrder_eq_ok_iff {v : Value} {keys : List SortKey} :
    decodeOrder v = .ok keys ↔ ∃ text, OrderText v text ∧ orderOfText text = .ok keys := by
  constructor
  · intro h
    cases v with
    | string s => exact ⟨s, .one (.string s), h⟩
    | keyword n => exact ⟨_, .one (.keyword n), h⟩
    | vector items =>
      obtain ⟨names, hitems, hkeys⟩ := bind_eq_ok_iff.mp h
      exact ⟨_, .vector (mapM_sortKeyName_eq_ok_iff.mp (atKey_eq_ok_iff.mp hitems)), hkeys⟩
    | list items =>
      obtain ⟨names, hitems, hkeys⟩ := bind_eq_ok_iff.mp h
      exact ⟨_, .list (mapM_sortKeyName_eq_ok_iff.mp (atKey_eq_ok_iff.mp hitems)), hkeys⟩
    | _ => cases h
  · rintro ⟨text, (⟨s | n⟩ | hitems | hitems), hkeys⟩
    · exact hkeys
    · exact hkeys
    all_goals
      have hnames := mapM_sortKeyName_eq_ok_iff.mpr hitems
      exact bind_eq_ok_iff.mpr ⟨_, atKey_eq_ok_iff.mpr hnames, hkeys⟩

/-- What an entry is read as on its own. -/
def OwnKeys (v : Value) (ks : List SortKey) : Prop :=
  ∃ name, EntryName v name ∧ orderOfText name = .ok ks

/-- The keys of entries, of which there is one at least, are the entries' own, in their order. -/
def Concatenates (items : List Value) (keys : List SortKey) : Prop :=
  items ≠ [] ∧ ∃ kss, List.Forall₂ OwnKeys items kss ∧ keys = kss.flatten

private theorem orderOfText_names {items : List Value} {keys : List SortKey} :
    (∃ names, List.Forall₂ EntryName items names ∧ orderOfText (",".intercalate names) = .ok keys) ↔
      Concatenates items keys := by
  constructor
  · rintro ⟨names, hnames, hkeys⟩
    have hne : names ≠ [] := by
      rintro rfl
      exact orderOfText_empty keys (String.intercalate_nil ▸ hkeys)
    refine ⟨?_, ?_⟩
    · rintro rfl
      cases hnames
      exact hne rfl
    · obtain ⟨kss, hkss, rfl⟩ := (orderOfText_intercalate hne).mp hkeys
      exact ⟨kss, exists_forall₂_iff.mp ⟨names, hnames, hkss⟩, rfl⟩
  · rintro ⟨hne, kss, hkss, rfl⟩
    obtain ⟨names, hnames, hkss⟩ := exists_forall₂_iff.mpr hkss
    have hne' : names ≠ [] := by
      rintro rfl
      cases hnames
      exact hne rfl
    exact ⟨names, hnames, (orderOfText_intercalate hne').mpr ⟨kss, hkss, rfl⟩⟩

theorem decodeOrder_vector_eq_ok_iff {items : List Value} {keys : List SortKey} :
    decodeOrder (.vector items) = .ok keys ↔ Concatenates items keys := by
  rw [← orderOfText_names, decodeOrder_eq_ok_iff]
  constructor
  · rintro ⟨_, hitems | hitems, hkeys⟩
    · cases hitems
    · exact ⟨_, hitems, hkeys⟩
  · rintro ⟨names, hitems, hkeys⟩
    exact ⟨_, .vector hitems, hkeys⟩

theorem decodeOrder_list (items : List Value) :
    decodeOrder (.list items) = decodeOrder (.vector items) :=
  rfl

/-- A comma between two texts only puts their keys one after the other, and a vector or a list is
read as its entries are, one by one. -/
theorem joined_orders_concatenate :
    (∀ (a b : String) (keys : List SortKey), orderOfText (a ++ "," ++ b) = .ok keys ↔
      ∃ ks ls, orderOfText a = .ok ks ∧ orderOfText b = .ok ls ∧ keys = ks ++ ls) ∧
    (∀ (items : List Value) (keys : List SortKey),
      decodeOrder (.vector items) = .ok keys ↔ Concatenates items keys) ∧
    ∀ (items : List Value) (keys : List SortKey),
      decodeOrder (.list items) = .ok keys ↔ Concatenates items keys := by
  refine ⟨fun a b keys => orderOfText_comma, fun items keys => decodeOrder_vector_eq_ok_iff,
    fun items keys => ?_⟩
  rw [decodeOrder_list]
  exact decodeOrder_vector_eq_ok_iff

example : decodeOrder (.vector [.string "name , left DESC", .keyword ⟨some "x", "id"⟩]) =
    .ok [⟨.attribute "name", false⟩, ⟨.left, true⟩, ⟨.attribute "x/id", false⟩] := by rfl

end Settings

end FlatTree
