import FlatTree.Table

/-!
# Stores and units of work

A store holds a committed table and counts its commits. A unit of work begins with a copy of the
table and changes the copy; committing puts the copy in the place of the table, and is refused if
another unit was committed in between. A store may also be told to refuse writes, and to let
another unit slip in before each commit.
-/

namespace FlatTree

structure Version where
  count : Nat
deriving DecidableEq, Repr

namespace Version

def next (v : Version) : Version :=
  ⟨v.count + 1⟩

def text (v : Version) : String :=
  s!"tx{v.count}"

instance : LT Version := ⟨fun v w => v.count < w.count⟩

instance (v w : Version) : Decidable (v < w) :=
  inferInstanceAs (Decidable (v.count < w.count))

end Version

inductive StoreError where
  | conflict (expected found : Version)
  | backend (message : String)
deriving DecidableEq, Repr

def StoreError.message : StoreError → String
  | .conflict expected found =>
    s!"Write conflict: transaction began at {expected.text} but the store is at {found.text}"
  | .backend message => s!"Store backend failure: {message}"

/-- How many writes of each kind a unit of work may still make; none for any number. -/
structure Quota where
  inserts : Option Nat
  shifts : Option Nat
  deletes : Option Nat
deriving DecidableEq, Repr

def Quota.unlimited : Quota :=
  ⟨none, none, none⟩

structure Work where
  table : Table
  quota : Quota

namespace Work

def spend (message : String) : Option Nat → Except StoreError (Option Nat)
  | none => .ok none
  | some 0 => .error (.backend message)
  | some (n + 1) => .ok (some n)

def insert (w : Work) (attributes : Attributes) (interval : Interval) :
    Except StoreError (Row × Work) := do
  let left ← spend "insert refused" w.quota.inserts
  let (r, t) := w.table.insert attributes interval
  pure (r, ⟨t, { w.quota with inserts := left }⟩)

def shift (w : Work) (side : Side) (s : Shift) : Except StoreError (Nat × Work) := do
  let left ← spend "shift refused" w.quota.shifts
  pure (w.table.reached side s, ⟨w.table.shift side s, { w.quota with shifts := left }⟩)

def delete (w : Work) (f : Filter) : Except StoreError (Nat × Work) := do
  let left ← spend "delete refused" w.quota.deletes
  pure (w.table.count f, ⟨w.table.delete f, { w.quota with deletes := left }⟩)

end Work

structure Faults where
  quota : Quota
  conflict : Bool
deriving DecidableEq, Repr

def Faults.none : Faults :=
  ⟨Quota.unlimited, false⟩

structure Store where
  table : Table
  version : Version
deriving DecidableEq

namespace Store

def empty : Store :=
  ⟨Table.empty, ⟨0⟩⟩

/-- Ends a unit of work that began at version `base`, and goes on with its table. -/
def commit (s : Store) (base : Version) (t : Table) : Except StoreError Store :=
  if s.version = base then .ok ⟨t, base.next⟩ else .error (.conflict base s.version)

/-- What another writer does who slips in: a unit of work that changes nothing. -/
def slipIn (s : Store) : Store :=
  ⟨s.table, s.version.next⟩

/-- Runs a unit of work. If it fails or cannot be committed, nothing it did is kept. -/
def write {ε α : Type} (s : Store) (faults : Faults) (lift : StoreError → ε)
    (unit : Work → Except ε (α × Work)) : Except ε α × Store :=
  match unit ⟨s.table, faults.quota⟩ with
  | .error e => (.error e, s)
  | .ok (a, w) =>
    let s' := if faults.conflict then s.slipIn else s
    match s'.commit s.version w.table with
    | .error e => (.error (lift e), s')
    | .ok s' => (.ok a, s')

end Store

end FlatTree
