import FlatTree.Interval

/-!
# Filters

A filter picks rows by their place: a condition on each bound, and perhaps one depth.
-/

namespace FlatTree

inductive Comparison where
  | any
  | eq (n : Int)
  | lt (n : Int)
  | le (n : Int)
  | gt (n : Int)
  | ge (n : Int)
deriving DecidableEq, Repr

def Comparison.holds (x : Int) : Comparison → Bool
  | .any => true
  | .eq n => x == n
  | .lt n => decide (x < n)
  | .le n => decide (x ≤ n)
  | .gt n => decide (n < x)
  | .ge n => decide (n ≤ x)

structure Filter where
  left : Comparison
  right : Comparison
  depth : Option Nat
deriving DecidableEq, Repr

namespace Filter

def accepts (f : Filter) (i : Interval) : Bool :=
  f.left.holds i.left && f.right.holds i.right &&
    match f.depth with
    | none => true
    | some d => d == i.depth

def all : Filter :=
  ⟨.any, .any, none⟩

/-- The place of a root: nothing is on its left. -/
def root : Filter :=
  ⟨.eq 1, .any, none⟩

def inside (i : Interval) : Filter :=
  ⟨.gt i.left, .lt i.right, none⟩

def around (i : Interval) : Filter :=
  ⟨.lt i.left, .gt i.right, none⟩

/-- Inside a closed range, its ends included. -/
def within (left right : Int) : Filter :=
  ⟨.ge left, .le right, none⟩

def atDepth (f : Filter) (depth : Nat) : Filter :=
  { f with depth := some depth }

/-- The descendants of a node, or its children alone. -/
def below (parent : Interval) (directOnly : Bool) : Filter :=
  if directOnly then (inside parent).atDepth (parent.depth + 1) else inside parent

end Filter

end FlatTree
