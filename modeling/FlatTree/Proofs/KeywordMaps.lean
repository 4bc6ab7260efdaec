import FlatTree.Edn.Decoder
import FlatTree.Edn.Order
import FlatTree.Proofs.Entries
import FlatTree.Proofs.Steps
import Mathlib.Data.List.TakeWhile

/-!
# Maps under keywords

A text and the keyword it is written as determine each other, so values under names that differ
become entries that differ, and reading the map gives the values back, each under its own name.
-/

namespace FlatTree

open Edn

/-! ## Names -/

namespace Edn.Name

/-- Folding the namespace in gives back the text that a name was cut from. -/
@[simp] theorem qualified_ofQualified (text : String) : (ofQualified text).qualified = text := by
  have hsplit := List.takeWhile_append_dropWhile (p := (· ≠ '/')) (l := text.toList)
  have hslash := List.head?_dropWhile_not (fun c : Char => decide (c ≠ '/')) text.toList
  simp only [ofQualified]
  split
  · rfl
  · next c base hbase =>
    rw [hbase] at hsplit hslash
    obtain rfl : c = '/' := by simpa using hslash
    split
    · rfl
    · simp only [qualified]
      rw [← String.toList_inj]
      simpa using hsplit

theorem ofQualified_of_notMem {text : String} (h : '/' ∉ text.toList) :
    ofQualified text = plain text := by
  have hnil : text.toList.dropWhile (· ≠ '/') = [] := by
    rw [List.dropWhile_eq_nil_iff]
    intro c hc
    exact decide_eq_true fun heq : c = '/' => h (heq ▸ hc)
  simp only [ofQualified, hnil]

theorem eq_of_compare {m n : Name} (h : compare m n = .eq) : m = n := by
  obtain ⟨hspace, hbase⟩ := Ordering.then_eq_eq.mp h
  cases m
  cases n
  rw [Name.mk.injEq]
  exact ⟨Std.LawfulEqCmp.eq_of_compare hspace, Std.LawfulEqCmp.eq_of_compare hbase⟩

instance : Std.TransOrd Name :=
  inferInstanceAs (Std.TransCmp (compareLex (compareOn Name.space) (compareOn Name.base)))

end Edn.Name

/-! ## Maps -/

namespace Edn.Value

theorem eq_keyword_of_asKeyword {v : Value} {n : Name} (h : v.asKeyword = .ok n) :
    v = .keyword n := by
  cases v with
  | keyword m =>
    cases h
    rfl
  | _ => cases h

/-- An entry of a map by the name that its key folds into. -/
def namedEntry (e : Value × Value) : Except DecodingError (String × Value) :=
  e.1.asKeyword.map fun n => (n.qualified, e.2)

/-- The entries of a map that has values under names. -/
def keyedEntries (pairs : List (String × Value)) : List (Value × Value) :=
  pairs.foldl (fun es p => Entries.put (.keyword (Name.ofQualified p.1)) p.2 es) []

theorem asKeywordMap_map (entries : List (Value × Value)) :
    (Value.map entries).asKeywordMap = (entries.mapM namedEntry).map Dict.ofList := by
  refine Eq.trans ?_ (foldlM_map_eq (f := namedEntry) (fun d p => d.put p.1 p.2) entries Dict.empty)
  rw [asKeywordMap]
  congr 1
  funext d ⟨k, v⟩
  simp only [namedEntry]
  cases k.asKeyword <;> rfl

theorem keyedEntries_perm {pairs : List (String × Value)} (h : (pairs.map Prod.fst).Nodup) :
    (keyedEntries pairs).Perm (pairs.map fun p => (.keyword (Name.ofQualified p.1), p.2)) := by
  refine Entries.foldl_put_perm (f := fun name => Value.keyword (Name.ofQualified name)) ?_ h
  intro a b hab
  have hname : Name.ofQualified a = Name.ofQualified b := Name.eq_of_compare hab
  rw [← Name.qualified_ofQualified a, hname, Name.qualified_ofQualified]

/-- Values may be replaced before or after they are put under their names. -/
theorem keyedEntries_map (f : Value → Value) (pairs : List (String × Value)) :
    keyedEntries (pairs.map fun p => (p.1, f p.2)) =
      (keyedEntries pairs).map fun e => (e.1, f e.2) := by
  rw [keyedEntries, List.foldl_map, ← List.map_nil (f := fun e : Value × Value => (e.1, f e.2))]
  apply List.foldl_hom
  intro es p
  exact Entries.put_map (g := id) (fun _ _ => rfl) f _ p.2 es

/-- Entries under names stand in the order of the names. -/
theorem keyedEntries_sorted (pairs : List (String × Value)) :
    (keyedEntries pairs).Pairwise fun a b => compare b.1 a.1 = .gt := by
  have hnames : keyedEntries pairs =
      (Dict.ofList (pairs.map fun p => (Name.ofQualified p.1, p.2))).entries.map
        fun e => (Value.keyword e.1, e.2) := by
    rw [Dict.entries_ofList, List.foldl_map, keyedEntries,
      ← List.map_nil (f := fun e : Name × Value => (Value.keyword e.1, e.2))]
    apply List.foldl_hom
    intro es p
    exact Entries.put_map (g := Value.keyword) (fun _ _ => rfl) id _ p.2 es
  rw [hnames, List.pairwise_map]
  apply (Dict.ascending _).imp
  intro a b hab
  have hgt : compare b.1 a.1 = .gt := Std.OrientedCmp.gt_of_lt hab
  exact hgt

/-- A map with values under names gives them back, each under its own. -/
theorem asKeywordMap_keyedEntries {pairs : List (String × Value)}
    (h : (pairs.map Prod.fst).Nodup) :
    (Value.map (keyedEntries pairs)).asKeywordMap = .ok (Dict.ofList pairs) := by
  have hnamed : (pairs.map fun p => (Value.keyword (Name.ofQualified p.1), p.2)).mapM
      namedEntry = .ok pairs := by
    rw [mapM_eq_ok_iff, List.forall₂_map_left_iff, List.forall₂_same]
    intro p _
    simp [namedEntry, asKeyword, Except.map]
  obtain ⟨pairs', hpairs, hperm⟩ := mapM_perm (keyedEntries_perm h) hnamed
  rw [asKeywordMap_map, hpairs, Except.map, Dict.ofList_congr h hperm]

end Edn.Value

end FlatTree
