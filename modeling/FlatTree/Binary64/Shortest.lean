import FlatTree.Binary64

/-!
# The shortest decimal that reads back

A finite float is written with as few digits as single it out among all floats. For one digit, two
digits and so on, the two decimals of that length beside the number are read back; the first
length at which one of them gives the same float is taken, and of two such decimals the nearer.
Formats differ only in what they do when both are equally near.
-/

namespace FlatTree.Binary64

/-- Which of two equally near decimals is written. -/
inductive Tie where
  | even
  | up
deriving DecidableEq, Repr

/-- The number of places before the decimal point, counted so that a number below one tenth has a
negative count. -/
def scale (x : Binary64) : Int :=
  (Nat.toDigits 10 ((x.units * tenTo 350) >>> 1074)).length - 350

def overGrid (x : Binary64) (grid : Int) : Nat × Nat :=
  (x.units * tenTo (-grid).toNat, tenTo grid.toNat <<< 1074)

def readsBack (x : Binary64) (d : Decimal) : Bool :=
  magnitudeOf d == x.magnitude

/-- The nearest neighbour on one grid that reads back, if one does. -/
def onGrid? (tie : Tie) (x : Binary64) (grid : Int) : Option Decimal :=
  let (num, den) := x.overGrid grid
  let below := num / den
  let lower : Decimal := ⟨below, grid⟩
  let upper : Decimal := ⟨below + 1, grid⟩
  match x.readsBack lower, x.readsBack upper with
  | true, false => some lower
  | false, true => some upper
  | false, false => none
  | true, true =>
    match compare (2 * num) ((2 * below + 1) * den) with
    | .lt => some lower
    | .gt => some upper
    | .eq => some (if tie = .even ∧ below % 2 = 0 then lower else upper)

/-- The decimal written for a finite number. Seventeen digits always single a float out; its exact
value stands behind them. -/
def shortest (tie : Tie) (x : Binary64) : Decimal :=
  if x.units = 0 then ⟨0, 0⟩ else
  let found := (List.range 17).findSome? fun (n : Nat) => x.onGrid? tie (x.scale - (n + 1))
  let d := found.getD ⟨x.units * Nat.pow 5 1074, -1074⟩
  Decimal.dropZeros d.digits d.exponent

end FlatTree.Binary64
