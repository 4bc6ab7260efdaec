import FlatTree.Filter
import FlatTree.SortKey

/-!
# Tables

A table holds rows in ascending order of their identities, and the number the next row will get.
Rows are found by filter and handed out in the order of sort keys; a shift moves one bound of every
row from some number on.
-/

namespace FlatTree

inductive Side where
  | left
  | right
deriving DecidableEq, Repr

def Shift.move (s : Shift) (side : Side) (i : Interval) : Interval :=
  match side with
  | .left => { i with left := s.bound i.left }
  | .right => { i with right := s.bound i.right }

def Side.bound (side : Side) (i : Interval) : Int :=
  match side with
  | .left => i.left
  | .right => i.right

structure Table where
  rows : List Row
  nextId : Nat
  ascending : rows.Pairwise fun a b => a.id.val < b.id.val

namespace Table

instance : DecidableEq Table := fun s t =>
  decidable_of_iff (s.rows = t.rows ∧ s.nextId = t.nextId) (by cases s; cases t; simp)

def empty : Table :=
  ⟨[], 1, List.Pairwise.nil⟩

def size (t : Table) : Nat :=
  t.rows.length

def get? (t : Table) (id : NodeId) : Option Row :=
  t.rows.find? (·.id = id)

/-- The rows that a filter accepts, sorted; rows that no key tells apart come by identity. -/
def find (t : Table) (f : Filter) (keys : List SortKey) : List Row :=
  SortKey.sort keys (t.rows.filter (f.accepts ·.interval))

def count (t : Table) (f : Filter) : Nat :=
  t.rows.countP (f.accepts ·.interval)

def snapshot (t : Table) : List Row :=
  t.find Filter.all []

/-- Puts a row in its place by identity, instead of the row with the same one. -/
def putRow (r : Row) : List Row → List Row
  | [] => [r]
  | s :: rows =>
    if r.id.val < s.id.val then r :: s :: rows
    else if r.id.val = s.id.val then r :: rows
    else s :: putRow r rows

theorem mem_putRow {r s : Row} {rows : List Row} (h : s ∈ putRow r rows) : s = r ∨ s ∈ rows := by
  induction rows with
  | nil => simpa [putRow] using h
  | cons a rows ih =>
    simp only [putRow] at h
    split at h
    · simpa using h
    · split at h
      · rcases List.mem_cons.mp h with rfl | h
        · exact .inl rfl
        · exact .inr (List.mem_cons_of_mem _ h)
      · rcases List.mem_cons.mp h with rfl | h
        · exact .inr List.mem_cons_self
        · exact (ih h).imp_right (List.mem_cons_of_mem _)

theorem ascending_putRow {r : Row} {rows : List Row}
    (h : rows.Pairwise fun a b => a.id.val < b.id.val) :
    (putRow r rows).Pairwise fun a b => a.id.val < b.id.val := by
  induction rows with
  | nil => simp [putRow]
  | cons a rows ih =>
    obtain ⟨ha, h⟩ := List.pairwise_cons.mp h
    simp only [putRow]
    split
    · next hlt =>
      refine List.pairwise_cons.mpr ⟨fun s hs => ?_, List.pairwise_cons.mpr ⟨ha, h⟩⟩
      rcases List.mem_cons.mp hs with rfl | hs
      · exact hlt
      · exact Nat.lt_trans hlt (ha s hs)
    · split
      · next heq => exact List.pairwise_cons.mpr ⟨fun s hs => heq ▸ ha s hs, h⟩
      · refine List.pairwise_cons.mpr ⟨fun s hs => ?_, ih h⟩
        rcases mem_putRow hs with rfl | hs
        · omega
        · exact ha s hs

def insert (t : Table) (attributes : Attributes) (interval : Interval) : Row × Table :=
  let r : Row := ⟨⟨t.nextId⟩, interval, attributes⟩
  (r, ⟨putRow r t.rows, t.nextId + 1, ascending_putRow t.ascending⟩)

def shift (t : Table) (side : Side) (s : Shift) : Table :=
  ⟨t.rows.map fun r => { r with interval := s.move side r.interval }, t.nextId,
    List.pairwise_map.mpr t.ascending⟩

def reached (t : Table) (side : Side) (s : Shift) : Nat :=
  t.rows.countP fun r => s.start ≤ side.bound r.interval

def delete (t : Table) (f : Filter) : Table :=
  ⟨t.rows.filter fun r => !f.accepts r.interval, t.nextId, t.ascending.filter _⟩

theorem id_of_get? {t : Table} {id : NodeId} {r : Row} (h : t.get? id = some r) : r.id = id := by
  simpa using List.find?_some h

theorem get?_of_mem {t : Table} {r : Row} (h : r ∈ t.rows) : t.get? r.id = some r := by
  obtain ⟨rows, _, hasc⟩ := t
  simp only [get?] at h ⊢
  induction rows with
  | nil => cases h
  | cons a rows ih =>
    obtain ⟨ha, hasc⟩ := List.pairwise_cons.mp hasc
    rcases List.mem_cons.mp h with rfl | h
    · simp
    · have hne : a.id ≠ r.id := fun he => absurd (he ▸ ha r h) (Nat.lt_irrefl _)
      simp only [List.find?_cons, hne, decide_false]
      exact ih hasc h

theorem mem_find {t : Table} {f : Filter} {keys : List SortKey} {r : Row} :
    r ∈ t.find f keys ↔ r ∈ t.rows ∧ f.accepts r.interval = true := by
  simp [find, SortKey.sort]

end Table

end FlatTree
