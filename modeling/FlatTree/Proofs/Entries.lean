import FlatTree.Dict
import Mathlib.Data.List.Induction

/-!
# Entries under keys that differ

Writing under a key that is there already replaces a value. Where all keys differ, nothing is lost:
the entries are the pairs that were written, in another order. A dictionary is what its entries are,
in whatever order they are told.
-/

namespace FlatTree

namespace Entries

variable {κ α β : Type} [Ord κ]

/-- A key that compares equal to no other makes a new entry. -/
theorem put_perm {k : κ} {v : α} {es : List (κ × α)} (h : ∀ e ∈ es, compare k e.1 ≠ .eq) :
    (put k v es).Perm ((k, v) :: es) := by
  induction es with
  | nil => exact .refl _
  | cons a es ih =>
    obtain ⟨ha, h⟩ := List.forall_mem_cons.mp h
    simp only [put]
    split
    · exact .refl _
    · next hc => exact absurd hc ha
    · exact ((ih h).cons a).trans (.swap ..)

/-- Keys made of different things, and equal of equal things only, get one entry each. -/
theorem foldl_put_perm {f : β → κ} (hf : ∀ a b, compare (f a) (f b) = .eq → a = b)
    {pairs : List (β × α)} (h : (pairs.map Prod.fst).Nodup) :
    (pairs.foldl (fun es p => put (f p.1) p.2 es) []).Perm (pairs.map fun p => (f p.1, p.2)) := by
  induction pairs using List.reverseRecOn with
  | nil => exact .refl _
  | append_singleton pairs p ih =>
    rw [List.map_append, List.nodup_append] at h
    obtain ⟨hpairs, -, hdis⟩ := h
    have hperm := ih hpairs
    rw [List.foldl_append, List.map_append]
    refine (put_perm fun e he heq => ?_).trans ?_
    · obtain ⟨q, hq, rfl⟩ := List.mem_map.mp (hperm.subset he)
      exact hdis q.1 (List.mem_map_of_mem hq) p.1 (by simp) (hf _ _ heq).symm
    · exact (hperm.cons _).trans (List.perm_append_singleton _ _).symm

/-- Keys may be replaced by others of the same order, and values by any others, before or after. -/
theorem put_map {κ' β : Type} [Ord κ'] {g : κ → κ'}
    (hg : ∀ a b, compare (g a) (g b) = compare a b) (f : α → β) (k : κ) (v : α)
    (es : List (κ × α)) : put (g k) (f v) (es.map fun e => (g e.1, f e.2)) =
      (put k v es).map fun e => (g e.1, f e.2) := by
  induction es with
  | nil => rfl
  | cons e es ih =>
    simp only [List.map_cons, put, hg]
    cases compare k e.1 with
    | lt => rfl
    | eq => rfl
    | gt => exact congrArg (_ :: ·) ih

end Entries

namespace Dict

variable {κ α : Type} [Ord κ] [Std.TransOrd κ]

private theorem eq_of_perm {d e : Dict κ α} (h : d.entries.Perm e.entries) : d = e := by
  refine Dict.ext (List.Perm.eq_of_pairwise ?_ d.ascending e.ascending h)
  intro a b _ _ hab hba
  have hgt : compare a.1 b.1 = .gt := Std.OrientedCmp.gt_of_lt hba
  rw [hab] at hgt
  cases hgt

theorem nodup_keys (d : Dict κ α) : d.keys.Nodup := by
  refine List.pairwise_map.mpr (d.ascending.imp fun {a b} h heq => ?_)
  have hself : compare a.1 b.1 = .eq := heq ▸ Std.ReflCmp.compare_self
  rw [h] at hself
  cases hself

theorem entries_ofList (pairs : List (κ × α)) :
    (ofList pairs).entries = pairs.foldl (fun es p => Entries.put p.1 p.2 es) [] :=
  (List.foldl_hom Dict.entries fun _ _ => rfl).symm

section Lawful

variable [Std.LawfulEqOrd κ]

theorem entries_ofList_perm {pairs : List (κ × α)} (h : (pairs.map Prod.fst).Nodup) :
    (ofList pairs).entries.Perm pairs := by
  rw [entries_ofList]
  have hperm := Entries.foldl_put_perm (f := id)
    (fun a b hab => Std.LawfulEqCmp.eq_of_compare hab) h
  rwa [List.map_id''] at hperm
  exact fun _ => rfl

/-- The pairs with different keys may be written in any order. -/
theorem ofList_congr {pairs pairs' : List (κ × α)} (h : (pairs.map Prod.fst).Nodup)
    (hperm : pairs'.Perm pairs) : ofList pairs' = ofList pairs := by
  have h' : (pairs'.map Prod.fst).Nodup := ((hperm.map _).nodup_iff).mpr h
  exact eq_of_perm (((entries_ofList_perm h').trans hperm).trans (entries_ofList_perm h).symm)

@[simp] theorem ofList_entries (d : Dict κ α) : ofList d.entries = d :=
  eq_of_perm (entries_ofList_perm d.nodup_keys)

theorem get?_eq_some_iff {d : Dict κ α} {k : κ} {v : α} :
    d.get? k = some v ↔ (k, v) ∈ d.entries := by
  have hnodup := d.nodup_keys
  simp only [get?, keys] at hnodup ⊢
  generalize d.entries = es at hnodup
  induction es with
  | nil => simp [Entries.get?]
  | cons e es ih =>
    obtain ⟨hnot, hnodup⟩ := List.nodup_cons.mp hnodup
    rw [Entries.get?, List.mem_cons]
    split
    · next hc =>
      obtain rfl := Std.LawfulEqCmp.eq_of_compare hc
      have hmem : (e.1, v) ∉ es := fun h => hnot (List.mem_map.mpr ⟨_, h, rfl⟩)
      simp [hmem, Prod.ext_iff, eq_comm]
    · next hc =>
      have hne : (k, v) ≠ e := fun h => hc (h ▸ Std.ReflCmp.compare_self)
      exact (ih hnodup).trans (or_iff_right hne).symm

/-- Nothing is in a dictionary but what was put there. -/
theorem mem_of_mem_ofList {pairs : List (κ × α)} {e : κ × α} (h : e ∈ (ofList pairs).entries) :
    e ∈ pairs := by
  rw [entries_ofList] at h
  induction pairs using List.reverseRecOn with
  | nil => cases h
  | append_singleton pairs p ih =>
    rw [List.foldl_append] at h
    rcases Entries.mem_put h with ⟨hvalue, hkey⟩ | rfl | h
    · obtain rfl : p = e := Prod.ext (Std.LawfulEqCmp.eq_of_compare hkey) hvalue.symm
      exact List.mem_append_right _ (List.mem_singleton_self _)
    · exact List.mem_append_right _ (List.mem_singleton_self _)
    · exact List.mem_append_left _ (ih h)

theorem get?_ofList {pairs : List (κ × α)} (h : (pairs.map Prod.fst).Nodup) {k : κ} {v : α} :
    (ofList pairs).get? k = some v ↔ (k, v) ∈ pairs := by
  rw [get?_eq_some_iff, (entries_ofList_perm h).mem_iff]

/-- Of several pairs with one key the last one counts. -/
theorem get?_ofList_eq [DecidableEq κ] (pairs : List (κ × α)) (k : κ) : (ofList pairs).get? k =
    pairs.reverse.findSome? fun p => if p.1 = k then some p.2 else none := by
  induction pairs using List.reverseRecOn with
  | nil => rfl
  | append_singleton pairs p ih =>
    have hput : ofList (pairs ++ [p]) = (ofList pairs).put p.1 p.2 := List.foldl_append
    rw [hput, List.reverse_append, List.reverse_singleton, List.singleton_append,
      List.findSome?_cons, ← ih]
    split
    · next v hv =>
      obtain ⟨rfl, rfl⟩ : p.1 = k ∧ p.2 = v := by simpa using hv
      exact get?_put_self _ _ _
    · next hnone =>
      have hne : p.1 ≠ k := by simpa using hnone
      exact get?_put_of_ne _ _ fun heq => hne (Std.LawfulEqCmp.eq_of_compare heq).symm

theorem mem_keys_ofList [DecidableEq κ] {pairs : List (κ × α)} {k : κ} :
    k ∈ (ofList pairs).keys ↔ ∃ p ∈ pairs, p.1 = k := by
  constructor
  · intro h
    obtain ⟨e, he, rfl⟩ := List.mem_map.mp h
    exact ⟨e, mem_of_mem_ofList he, rfl⟩
  · rintro ⟨p, hp, rfl⟩
    cases hget : (ofList pairs).get? p.1 with
    | none =>
      rw [get?_ofList_eq, List.findSome?_eq_none_iff] at hget
      exact absurd (hget p (List.mem_reverse.mpr hp)) (by simp)
    | some v => exact List.mem_map.mpr ⟨_, get?_eq_some_iff.mp hget, rfl⟩

end Lawful

end Dict

end FlatTree
