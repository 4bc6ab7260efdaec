import FlatTree.Proofs.KeywordMaps
import Mathlib.Data.List.Nodup

/-!
# Names folded into texts

Every text stands for a name that folds into it. A name is what its text stands for if its namespace
ends where the first slash of the text is, and there are names for which it does not. A map under
names of the first kind keeps all its entries when they are told by text.
-/

namespace FlatTree.Edn

namespace Name

/-- Names that can be told from their texts. With a namespace, neither part is empty and the
namespace has no slash; without one, the text must not look as if there were. -/
def Canonical (n : Name) : Prop :=
  match n.space with
  | some space => space ≠ "" ∧ '/' ∉ space.toList ∧ n.base ≠ ""
  | none => ¬∃ x y : String, x ≠ "" ∧ '/' ∉ x.toList ∧ y ≠ "" ∧ n.base = x ++ "/" ++ y

/-- A text with something on both sides of its first slash is cut there. -/
theorem ofQualified_of_slash {x y : String} (hx : x ≠ "") (hslash : '/' ∉ x.toList) (hy : y ≠ "") :
    ofQualified (x ++ "/" ++ y) = ⟨some x, y⟩ := by
  have hall : ∀ c ∈ x.toList, decide (c ≠ '/') = true := fun c hc =>
    decide_eq_true fun heq => hslash (heq ▸ hc)
  have htext : (x ++ "/" ++ y).toList = x.toList ++ '/' :: y.toList := by simp
  have htake : (x.toList ++ '/' :: y.toList).takeWhile (· ≠ '/') = x.toList := by
    rw [List.takeWhile_append_of_pos hall]
    simp
  have hdrop : (x.toList ++ '/' :: y.toList).dropWhile (· ≠ '/') = '/' :: y.toList := by
    rw [List.dropWhile_append_of_pos hall]
    simp
  have hne : ¬(x.toList = [] ∨ y.toList = []) := by simp [hx, hy]
  simp only [ofQualified, htext, htake, hdrop, if_neg hne, String.ofList_toList]

/-- A text stands for a name without a namespace, unless it is cut. -/
theorem ofQualified_cases (text : String) : ofQualified text = plain text ∨
    ∃ x y, x ≠ "" ∧ '/' ∉ x.toList ∧ y ≠ "" ∧ ofQualified text = ⟨some x, y⟩ := by
  have hslash : '/' ∉ text.toList.takeWhile (· ≠ '/') := by
    intro hmem
    have hne := List.mem_takeWhile_imp hmem
    exact of_decide_eq_true hne rfl
  simp only [ofQualified]
  split
  · exact .inl rfl
  · split
    · exact .inl rfl
    · next hne =>
      refine .inr ⟨_, _, ?_, ?_, ?_, rfl⟩
      · simpa using fun h => hne (.inl h)
      · simpa using hslash
      · simpa using fun h => hne (.inr h)

theorem ofQualified_injective : Function.Injective ofQualified :=
  Function.LeftInverse.injective qualified_ofQualified

theorem ofQualified_qualified_iff {n : Name} : ofQualified n.qualified = n ↔ n.Canonical := by
  obtain ⟨_ | space, base⟩ := n
  · constructor
    · rintro h ⟨x, y, hx, hslash, hy, rfl⟩
      rw [qualified, ofQualified_of_slash hx hslash hy] at h
      cases h
    · intro h
      rcases ofQualified_cases base with hplain | ⟨x, y, hx, hslash, hy, hcut⟩
      · exact hplain
      · have hbase : base = x ++ "/" ++ y := by rw [← qualified_ofQualified base, hcut, qualified]
        exact absurd ⟨x, y, hx, hslash, hy, hbase⟩ h
  · constructor
    · intro h
      rcases ofQualified_cases (qualified ⟨some space, base⟩) with hplain | hcut
      · cases h.symm.trans hplain
      · obtain ⟨x, y, hx, hslash, hy, hcut⟩ := hcut
        cases h.symm.trans hcut
        exact ⟨hx, hslash, hy⟩
    · rintro ⟨hspace, hslash, hbase⟩
      exact ofQualified_of_slash hspace hslash hbase

end Name

/-! ## Maps told by text -/

namespace Value

/-- A map under some names. -/
def underNames (pairs : List (Name × Value)) : Value :=
  .map (pairs.map fun p => (.keyword p.1, p.2))

theorem asKeywordMap_underNames (pairs : List (Name × Value)) : (underNames pairs).asKeywordMap =
    .ok (Dict.ofList (pairs.map fun p => (p.1.qualified, p.2))) := by
  have hnamed : (pairs.map fun p => (Value.keyword p.1, p.2)).mapM namedEntry =
      .ok (pairs.map fun p => (p.1.qualified, p.2)) := by
    rw [mapM_eq_ok_iff, List.forall₂_map_left_iff, List.forall₂_map_right_iff, List.forall₂_same]
    exact fun _ _ => rfl
  rw [underNames, asKeywordMap_map, hnamed]
  rfl

/-- Entries whose keys are keywords have names. -/
theorem exists_names {entries : List (Value × Value)} (h : ∀ e ∈ entries, ∃ n, e.1 = .keyword n) :
    ∃ pairs : List (Name × Value), entries = pairs.map fun p => (.keyword p.1, p.2) := by
  induction entries with
  | nil => exact ⟨[], rfl⟩
  | cons e entries ih =>
    obtain ⟨⟨n, hn⟩, hentries⟩ := List.forall_mem_cons.mp h
    obtain ⟨pairs, rfl⟩ := ih hentries
    exact ⟨(n, e.2) :: pairs, by rw [List.map_cons, ← hn]⟩

/-- A map is refused just for a key that is no keyword. -/
theorem exists_asKeywordMap_error_iff {entries : List (Value × Value)} :
    (∃ e, (Value.map entries).asKeywordMap = .error e) ↔ ∃ e ∈ entries, ∀ n, e.1 ≠ .keyword n := by
  constructor
  · rintro ⟨error, herror⟩
    by_contra hall
    push Not at hall
    obtain ⟨pairs, rfl⟩ := exists_names hall
    cases herror.symm.trans (asKeywordMap_underNames pairs)
  · rintro ⟨e, he, hkey⟩
    cases hmap : (Value.map entries).asKeywordMap with
    | error error => exact ⟨error, rfl⟩
    | ok d =>
      rw [asKeywordMap_map] at hmap
      obtain ⟨pairs, hpairs, -⟩ := map_eq_ok_iff.mp hmap
      obtain ⟨p, -, hp⟩ := exists_mem_of_mapM hpairs he
      obtain ⟨n, hn, -⟩ := map_eq_ok_iff.mp hp
      exact absurd (eq_keyword_of_asKeyword hn) (hkey n)

/-- Names that can be told from their texts are as different as the texts. -/
theorem nodup_qualified {names : List Name} (h : ∀ n ∈ names, n.Canonical) (hnodup : names.Nodup) :
    (names.map Name.qualified).Nodup := by
  refine List.Nodup.map_on (fun m hm n hn heq => ?_) hnodup
  have hback := fun n hn => Name.ofQualified_qualified_iff.mpr (h n hn)
  rw [← hback m hm, heq, hback n hn]

/-- Under names that can be told from their texts, every entry of a map is told, under the text of
its own name. -/
theorem asKeywordMap_of_canonical {pairs : List (Name × Value)} (h : ∀ p ∈ pairs, p.1.Canonical)
    (hnodup : (pairs.map Prod.fst).Nodup) : ∃ d, (underNames pairs).asKeywordMap = .ok d ∧
      d.entries.Perm (pairs.map fun p => (p.1.qualified, p.2)) ∧
      ∀ p ∈ pairs, d.get? p.1.qualified = some p.2 := by
  have hnames : ∀ n ∈ pairs.map Prod.fst, n.Canonical := List.forall_mem_map.mpr h
  have htexts : ((pairs.map fun p => (p.1.qualified, p.2)).map Prod.fst).Nodup := by
    have hmap := nodup_qualified hnames hnodup
    rwa [List.map_map] at hmap ⊢
  refine ⟨_, asKeywordMap_underNames pairs, Dict.entries_ofList_perm htexts, fun p hp => ?_⟩
  exact (Dict.get?_ofList htexts).mpr (List.mem_map.mpr ⟨p, hp, rfl⟩)

end Value

namespace Name

/-- A text stands for a name of its own, and the names that texts stand for are those that can be
told from their texts. A map under such names has one entry for each when its keys are told by text,
and a map is refused only for a key that is no keyword. -/
theorem names_fold_and_unfold :
    (∀ text, (ofQualified text).qualified = text) ∧ Function.Injective ofQualified ∧
    (∀ n : Name, ofQualified n.qualified = n ↔ n.Canonical) ∧
    (∀ pairs : List (Name × Value), (∀ p ∈ pairs, p.1.Canonical) → (pairs.map Prod.fst).Nodup →
      ∃ d, (Value.underNames pairs).asKeywordMap = .ok d ∧
        d.entries.Perm (pairs.map fun p => (p.1.qualified, p.2)) ∧
        ∀ p ∈ pairs, d.get? p.1.qualified = some p.2) ∧
    ∀ entries : List (Value × Value), (∃ e, (Value.map entries).asKeywordMap = .error e) ↔
      ∃ e ∈ entries, ∀ n, e.1 ≠ .keyword n :=
  ⟨qualified_ofQualified, ofQualified_injective, fun _ => ofQualified_qualified_iff,
    fun _ => Value.asKeywordMap_of_canonical, fun _ => Value.exists_asKeywordMap_error_iff⟩

/-- Slashes at the ends and in the middle, and no name at all. -/
theorem names_fold_and_unfold_slashes :
    let pairs : List (Name × Value) := [(plain "/", .nil), (⟨some "a", "b/c"⟩, .boolean true),
      (plain "a/", .boolean false), (plain "", .string "x"), (⟨some "a", "/"⟩, .integer 1)]
    (∀ p ∈ pairs, p.1.Canonical) ∧ (pairs.map Prod.fst).Nodup ∧
      ∃ d, (Value.underNames pairs).asKeywordMap = .ok d ∧ d.get? "a//" = some (.integer 1) := by
  intro pairs
  have hcanonical : ∀ p ∈ pairs, p.1.Canonical := by
    have hback : ∀ n ∈ pairs.map Prod.fst, ofQualified n.qualified = n := by decide
    exact fun p hp => ofQualified_qualified_iff.mp (hback p.1 (List.mem_map_of_mem hp))
  have hnodup : (pairs.map Prod.fst).Nodup := by decide
  obtain ⟨d, hd, -, hget⟩ := names_fold_and_unfold.2.2.2.1 pairs hcanonical hnodup
  exact ⟨hcanonical, hnodup, d, hd, hget (⟨some "a", "/"⟩, .integer 1) (by simp [pairs])⟩

end Name

end FlatTree.Edn
