/-!
# Decimal numbers

A decimal is a whole number of digits times a power of ten. Reading accepts digits with at most
one point and at most one exponent; writing puts every digit in its place and uses no exponent.
-/

namespace FlatTree

/-- The number `digits * 10 ^ exponent`. -/
structure Decimal where
  digits : Nat
  exponent : Int
deriving DecidableEq, Repr

def natOfDigits (cs : List Char) : Nat :=
  cs.foldl (fun n c => 10 * n + (c.toNat - '0'.toNat)) 0

def tenTo (k : Nat) : Nat :=
  Nat.pow 10 k

namespace Decimal

def ratio (d : Decimal) : Nat × Nat :=
  (d.digits * tenTo d.exponent.toNat, tenTo (-d.exponent).toNat)

def dropZeros (digits : Nat) (exponent : Int) : Decimal :=
  if digits ≠ 0 ∧ digits % 10 = 0 then dropZeros (digits / 10) (exponent + 1)
  else ⟨digits, exponent⟩
termination_by digits
decreasing_by omega

/-- All digits in their places: zeros are added behind a whole number and between the point and a
small one. -/
def plain (d : Decimal) : List Char :=
  let ds := Nat.toDigits 10 d.digits
  let places := (-d.exponent).toNat
  if 0 ≤ d.exponent then ds ++ List.replicate d.exponent.toNat '0'
  else if places < ds.length then
    ds.take (ds.length - places) ++ '.' :: ds.drop (ds.length - places)
  else '0' :: '.' :: List.replicate (places - ds.length) '0' ++ ds

/-- An optional sign, `true` for a minus, and what follows it. -/
def splitSign : List Char → Bool × List Char
  | '-' :: cs => (true, cs)
  | '+' :: cs => (false, cs)
  | cs => (false, cs)

def readInt? (cs : List Char) : Option Int :=
  let (negative, ds) := splitSign cs
  if ds ≠ [] ∧ ds.all Char.isDigit then
    some (if negative then -(natOfDigits ds : Int) else natOfDigits ds)
  else none

def readExponent? : List Char → Option Int
  | [] => some 0
  | c :: cs => if c = 'e' ∨ c = 'E' then readInt? cs else none

/-- A sign, digits with at most one point and at least one digit, and an exponent part. -/
def read? (cs : List Char) : Option (Bool × Decimal) :=
  let (negative, body) := splitSign cs
  let whole := body.takeWhile Char.isDigit
  let rest := body.dropWhile Char.isDigit
  let (places, rest) := match rest with
    | '.' :: r => (r.takeWhile Char.isDigit, r.dropWhile Char.isDigit)
    | r => ([], r)
  if whole ++ places = [] then none
  else (readExponent? rest).map fun e =>
    (negative, ⟨natOfDigits (whole ++ places), e - places.length⟩)

end Decimal

end FlatTree
