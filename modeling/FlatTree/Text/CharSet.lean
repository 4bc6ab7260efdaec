/-!
# Sets of characters

A set of characters is a table of ranges of scalar values, in ascending order.
-/

namespace FlatTree

/-- Ranges of scalar values, both ends included, ascending and apart. -/
structure CharSet where
  ranges : List (Nat × Nat)

namespace CharSet

def covers : List (Nat × Nat) → Nat → Bool
  | [], _ => false
  | (lo, hi) :: rest, n => if n < lo then false else if n ≤ hi then true else covers rest n

def has (s : CharSet) (c : Char) : Bool :=
  covers s.ranges c.toNat

end CharSet

end FlatTree
