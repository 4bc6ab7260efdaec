/-!
# Dictionaries in key order

Entries kept in strictly ascending order of their keys, so that a dictionary has one form only:
two dictionaries with the same entries are equal. `Entries` holds the operations on the bare
list, for key types whose order leaves different keys equal; `Dict` carries the order as a proof.
-/

namespace FlatTree

namespace Entries

variable {κ α : Type} [Ord κ]

def Ascending (es : List (κ × α)) : Prop :=
  es.Pairwise fun a b => compare a.1 b.1 = .lt

/-- Writes `v` under `k`. A key that compares equal keeps its place and its form and gets the new
value; a new key goes in front of the first larger one. -/
def put (k : κ) (v : α) : List (κ × α) → List (κ × α)
  | [] => [(k, v)]
  | (k', v') :: es =>
    match compare k k' with
    | .lt => (k, v) :: (k', v') :: es
    | .eq => (k', v) :: es
    | .gt => (k', v') :: put k v es

def get? (k : κ) : List (κ × α) → Option α
  | [] => none
  | (k', v) :: es => if compare k k' = .eq then some v else get? k es

theorem mem_put {k : κ} {v : α} {es : List (κ × α)} {e : κ × α} (h : e ∈ put k v es) :
    (e.2 = v ∧ compare k e.1 = .eq) ∨ e = (k, v) ∨ e ∈ es := by
  induction es with
  | nil => simp_all [put]
  | cons a es ih =>
    obtain ⟨k', v'⟩ := a
    simp only [put] at h
    split at h
    · simp only [List.mem_cons] at h ⊢
      exact Or.inr h
    · next hc =>
      rcases List.mem_cons.mp h with rfl | h
      · exact Or.inl ⟨rfl, hc⟩
      · exact Or.inr (Or.inr (List.mem_cons_of_mem _ h))
    · rcases List.mem_cons.mp h with rfl | h
      · exact Or.inr (Or.inr List.mem_cons_self)
      · rcases ih h with h | h | h
        · exact Or.inl h
        · exact Or.inr (Or.inl h)
        · exact Or.inr (Or.inr (List.mem_cons_of_mem _ h))

theorem Ascending.put [Std.TransOrd κ] {k : κ} {v : α} {es : List (κ × α)}
    (h : Ascending es) : Ascending (Entries.put k v es) := by
  induction es with
  | nil => simp [Entries.put, Ascending]
  | cons a es ih =>
    obtain ⟨k', v'⟩ := a
    have ha := List.pairwise_cons.mp h
    simp only [Entries.put]
    split
    · next hc =>
      refine List.pairwise_cons.mpr ⟨fun e he => ?_, h⟩
      rcases List.mem_cons.mp he with rfl | he
      · exact hc
      · exact Std.TransCmp.lt_trans hc (ha.1 e he)
    · exact List.pairwise_cons.mpr ⟨ha.1, ha.2⟩
    · next hc =>
      refine List.pairwise_cons.mpr ⟨fun e he => ?_, ih ha.2⟩
      have hlt : compare k' k = .lt := Std.OrientedCmp.lt_of_gt hc
      rcases mem_put he with ⟨_, heq⟩ | rfl | he
      · exact Std.TransCmp.lt_of_lt_of_eq hlt heq
      · exact hlt
      · exact ha.1 e he

end Entries

structure Dict (κ α : Type) [Ord κ] where
  entries : List (κ × α)
  ascending : Entries.Ascending entries

namespace Dict

variable {κ α : Type} [Ord κ]

instance [DecidableEq κ] [DecidableEq α] : DecidableEq (Dict κ α) := fun d e =>
  decidable_of_iff (d.entries = e.entries) (by cases d; cases e; simp)

instance [Repr κ] [Repr α] : Repr (Dict κ α) := ⟨fun d n => reprPrec d.entries n⟩

def empty : Dict κ α :=
  ⟨[], List.Pairwise.nil⟩

instance : Inhabited (Dict κ α) := ⟨empty⟩

def put [Std.TransOrd κ] (d : Dict κ α) (k : κ) (v : α) : Dict κ α :=
  ⟨Entries.put k v d.entries, d.ascending.put⟩

def get? (d : Dict κ α) (k : κ) : Option α :=
  Entries.get? k d.entries

/-- The dictionary of some pairs, of which the last one with a key counts. -/
def ofList [Std.TransOrd κ] (pairs : List (κ × α)) : Dict κ α :=
  pairs.foldl (fun d p => d.put p.1 p.2) empty

def keys (d : Dict κ α) : List κ :=
  d.entries.map Prod.fst

@[ext] theorem ext {d e : Dict κ α} (h : d.entries = e.entries) : d = e := by
  cases d; cases e; simp_all

theorem get?_put_self [Std.TransOrd κ] (d : Dict κ α) (k : κ) (v : α) :
    (d.put k v).get? k = some v := by
  obtain ⟨es, h⟩ := d
  simp only [put, get?]
  clear h
  induction es with
  | nil => simp [Entries.put, Entries.get?]
  | cons a es ih =>
    simp only [Entries.put]
    split
    · simp [Entries.get?]
    · next hc => simp [Entries.get?, hc]
    · next hc => simp [Entries.get?, hc, ih]

theorem get?_put_of_ne [Std.TransOrd κ] (d : Dict κ α) {k k' : κ} (v : α)
    (h : compare k' k ≠ .eq) : (d.put k v).get? k' = d.get? k' := by
  obtain ⟨es, hes⟩ := d
  simp only [put, get?]
  clear hes
  induction es with
  | nil => simp [Entries.put, Entries.get?, h]
  | cons a es ih =>
    simp only [Entries.put]
    split
    · simp [Entries.get?, h]
    · next hc =>
      have hne : compare k' a.1 ≠ .eq := Std.TransCmp.congr_right hc ▸ h
      simp [Entries.get?, hne]
    · simp only [Entries.get?, ih]

end Dict

end FlatTree
