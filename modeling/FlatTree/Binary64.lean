import FlatTree.Decimal

/-!
# Binary floating point of 64 bits

A number is its 64 bits: a sign, and below it the magnitude, whose order as a whole number is the
order of the sizes. Every finite size is a whole multiple of the smallest one, `2 ^ -1074`, so
rounding is a question about natural numbers. The order takes both zeros for one number, and takes
every NaN for one number above all others.
-/

namespace FlatTree

/-- A floating point number, by its bits. -/
structure Binary64 where
  bits : UInt64
deriving DecidableEq, Repr

/-- The whole number nearest to `num / den`; of two equally near ones the even one. -/
def roundHalfEven (num den : Nat) : Nat :=
  let q := num / den
  let twice := 2 * (num % den)
  if twice < den ∨ (twice = den ∧ q % 2 = 0) then q else q + 1

namespace Binary64

def infinite : Nat :=
  0x7ff0000000000000

def isNegative (x : Binary64) : Bool :=
  decide (0x8000000000000000 ≤ x.bits.toNat)

def magnitude (x : Binary64) : Nat :=
  x.bits.toNat % 0x8000000000000000

def isNaN (x : Binary64) : Bool :=
  decide (infinite < x.magnitude)

def isInfinite (x : Binary64) : Bool :=
  x.magnitude == infinite

def ofMagnitude (negative : Bool) (magnitude : Nat) : Binary64 :=
  ⟨UInt64.ofNat (if negative then 0x8000000000000000 + magnitude else magnitude)⟩

/-- A number that grows with the float: the zeros share a key, and NaN has the greatest. -/
def orderKey (x : Binary64) : Int :=
  if x.isNaN then 0x8000000000000000
  else if x.isNegative then -(x.magnitude : Int)
  else x.magnitude

instance : Ord Binary64 := ⟨fun x y => compare x.orderKey y.orderKey⟩

/-- The size that a finite magnitude stands for, in units of `2 ^ -1074`. -/
def unitsOf (magnitude : Nat) : Nat :=
  let e := magnitude / 0x10000000000000
  let f := magnitude % 0x10000000000000
  if e = 0 then f else (0x10000000000000 + f) <<< (e - 1)

def units (x : Binary64) : Nat :=
  unitsOf x.magnitude

/-- The magnitude nearest to `num / den`, an even one on a tie. The quotient in units is cut to 53
binary digits; the number of digits cut off is the exponent, and a carry out of the 53 digits
moves into it by itself. -/
def magnitudeNear (num den : Nat) : Nat :=
  let n := num <<< 1074
  let cut := (n / den).log2 - 52
  min infinite ((cut <<< 52) + roundHalfEven n (den <<< cut))

def timesNear (a b : Nat) : Nat :=
  magnitudeNear (unitsOf a * unitsOf b) (1 <<< 2148)

def overNear (a b : Nat) : Nat :=
  magnitudeNear (unitsOf a) (unitsOf b)

/-- The magnitude nearest to a decimal. Decimals beyond every finite number, and those far below
the smallest one, are decided by their exponent alone. -/
def magnitudeOf (d : Decimal) : Nat :=
  if d.digits = 0 then 0
  else if 400 < d.exponent then infinite
  else if d.exponent < -400 - (d.digits.log2 : Int) then 0
  else magnitudeNear d.ratio.1 d.ratio.2

def ofDecimal (negative : Bool) (d : Decimal) : Binary64 :=
  ofMagnitude negative (magnitudeOf d)

def read? (cs : List Char) : Option Binary64 :=
  (Decimal.read? cs).map fun (negative, d) => ofDecimal negative d

end Binary64

end FlatTree
