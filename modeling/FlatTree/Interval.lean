/-!
# Intervals and their arithmetic

A tree is laid out along one count: a node takes two numbers of it, its left bound on the way in
and its right bound on the way out, so a node lies below another exactly when its interval lies
strictly inside the other's. Inserting opens a gap of two numbers and deleting closes one; both
move every bound from some number on by the same distance.
-/

namespace FlatTree

/-- Where a node stands: its two bounds, and how many nodes enclose it. All three are numbers of any
size; how far words hold what is added to them is the matter of `Table.wordShift_eq_iff` and
`Filter.wordBelow_eq_iff`. -/
structure Interval where
  left : Int
  right : Int
  depth : Nat
deriving DecidableEq, Repr

/-- A translation of every bound that is at least `start`. -/
structure Shift where
  start : Int
  delta : Int
deriving DecidableEq, Repr

/-- Bounds are moved one by one, so an interval that straddles `start` is stretched. -/
def Shift.bound (s : Shift) (x : Int) : Int :=
  if s.start ≤ x then x + s.delta else x

def Shift.apply (s : Shift) (i : Interval) : Interval :=
  { i with left := s.bound i.left, right := s.bound i.right }

/-- What a deletion takes out, the closed range from `left` to `right`, and the shift that closes
the gap it leaves. -/
structure Removal where
  left : Int
  right : Int
  shift : Shift
deriving DecidableEq, Repr

/-- How many nodes of a well numbered tree lie in the range. Halves go toward zero. -/
def Removal.rows (r : Removal) : Int :=
  Int.tdiv (r.right - r.left + 1) 2

inductive RemovalError where
  | hasDescendants (span : Int)
deriving DecidableEq, Repr

def RemovalError.message : RemovalError → String
  | .hasDescendants span => s!"Interval of span {span} contains descendants"

namespace Interval

def span (i : Interval) : Int :=
  i.right - i.left + 1

/-- How many nodes fit strictly inside. Halves go toward zero. -/
def descendants (i : Interval) : Int :=
  Int.tdiv (i.right - i.left - 1) 2

def isLeaf (i : Interval) : Bool :=
  i.right - i.left == 1

/-- Strict containment: neither bound is shared. -/
def contains (outer inner : Interval) : Bool :=
  decide (outer.left < inner.left) && decide (inner.right < outer.right)

def root : Interval :=
  ⟨1, 2, 0⟩

/-- Where a new last child of a node goes: it takes the parent's right bound and the number after
it, which the parent gives up when the gap is opened. -/
def lastChild (parent : Interval) : Interval :=
  ⟨parent.right, parent.right + 1, parent.depth + 1⟩

/-- The removal of a node together with what lies inside it. A node that is wider than a leaf is
refused unless its descendants may go with it. -/
def removal (i : Interval) (withDescendants : Bool) : Except RemovalError Removal :=
  if 2 < i.span ∧ withDescendants = false then
    .error (.hasDescendants i.span)
  else
    .ok ⟨i.left, i.right, ⟨i.left, -i.span⟩⟩

def text (i : Interval) : String :=
  s!"[{i.left}, {i.right}]@{i.depth}"

end Interval

def Shift.opening (left : Int) : Shift :=
  ⟨left, 2⟩

theorem Interval.contains_iff {a b : Interval} :
    a.contains b = true ↔ a.left < b.left ∧ b.right < a.right := by
  simp [Interval.contains]

theorem Shift.bound_of_lt {s : Shift} {x : Int} (h : x < s.start) : s.bound x = x := by
  simp [Shift.bound, Int.not_le.mpr h]

theorem Shift.bound_of_le {s : Shift} {x : Int} (h : s.start ≤ x) :
    s.bound x = x + s.delta := by
  simp [Shift.bound, h]

end FlatTree
