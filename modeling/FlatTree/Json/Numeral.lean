import FlatTree.Binary64.Shortest

/-!
# Numbers in JSON

A number is kept as it is spelled: a sign, digits, places behind a point, an exponent. What it
stands for depends on who asks. As a whole number it may have neither places nor exponent. As a
float it is read as quick readers do: as many digits as fit 64 bits are taken as a whole number,
which is rounded, and then multiplied or divided by a rounded power of ten and rounded again.
-/

namespace FlatTree.Json

/-- The spelling of a number. The places are those behind the point, none without a point. -/
structure Numeral where
  negative : Bool
  whole : List Char
  places : List Char
  exponent : Option Int
deriving DecidableEq, Repr

namespace Numeral

def ofNat (n : Nat) : Numeral :=
  ⟨false, Nat.toDigits 10 n, [], none⟩

def ofInt (n : Int) : Numeral :=
  ⟨decide (n < 0), Nat.toDigits 10 n.natAbs, [], none⟩

/-- The whole number that a spelling without places and exponent stands for. A minus before zero
makes it a float. -/
def toInt? (n : Numeral) : Option Int :=
  let m := natOfDigits n.whole
  if n.places ≠ [] ∨ n.exponent ≠ none then none
  else if n.negative then (if m = 0 then none else some (-(m : Int)))
  else some m

def toNat64? (n : Numeral) : Option Nat :=
  match n.toInt? with
  | some (.ofNat m) => if m < 0x10000000000000000 then some m else none
  | _ => none

def toInt64? (n : Numeral) : Option Int64 :=
  match n.toInt? with
  | some i =>
    if -0x8000000000000000 ≤ i ∧ i < 0x8000000000000000 then some (Int64.ofInt i) else none
  | none => none

/-- Takes digits as long as the number they make fits 64 bits; what follows is left. -/
def takeFitting (n : Nat) : List Char → Nat × List Char
  | [] => (n, [])
  | c :: cs =>
    let m := 10 * n + (c.toNat - '0'.toNat)
    if m < 0x10000000000000000 then takeFitting m cs else (n, c :: cs)

def powerOfTen (k : Nat) : Nat :=
  Binary64.magnitudeNear (tenTo k) 1

/-- Divides by `10 ^ k`, by steps of 308 powers at most. -/
def scaleDown (m k : Nat) : Nat :=
  if 308 < k then
    if m = 0 then 0 else scaleDown (Binary64.overNear m (powerOfTen 308)) (k - 308)
  else Binary64.overNear m (powerOfTen k)
termination_by k
decreasing_by omega

def scale? (m : Nat) (e : Int) : Option Nat :=
  if e < 0 then some (scaleDown m (-e).toNat)
  else if m = 0 then some 0
  else if 308 < e then none
  else
    let r := Binary64.timesNear m (powerOfTen e.toNat)
    if r = Binary64.infinite then none else some r

/-- The float that a number stands for; none beyond every finite number. Digits that do not fit
before the point count as zeros, and behind it not at all. -/
def toFloat? (n : Numeral) : Option Binary64 :=
  let (significand, unfit) := takeFitting 0 n.whole
  let (significand, dropped) := takeFitting significand n.places
  let taken := n.places.length - dropped.length
  let e := n.exponent.getD 0 + unfit.length - taken
  (scale? (Binary64.magnitudeNear significand 1) e).map (Binary64.ofMagnitude n.negative)

/-- The spelling of a finite float: positional from five places behind the point to sixteen before
it, with at least one place; otherwise one digit before the point, and an exponent. Of two equally
near decimals the one with an even last digit is written. -/
def ofFloat (x : Binary64) : Numeral :=
  let d := x.shortest .even
  let ds := Nat.toDigits 10 d.digits
  let before : Int := ds.length + d.exponent
  if 0 ≤ d.exponent ∧ before ≤ 16 then
    ⟨x.isNegative, ds ++ List.replicate d.exponent.toNat '0', ['0'], none⟩
  else if 0 < before ∧ before ≤ 16 then
    ⟨x.isNegative, ds.take before.toNat, ds.drop before.toNat, none⟩
  else if -5 < before ∧ before ≤ 0 then
    ⟨x.isNegative, ['0'], List.replicate (-before).toNat '0' ++ ds, none⟩
  else
    ⟨x.isNegative, ds.take 1, ds.drop 1, some (before - 1)⟩

def chars (n : Numeral) : List Char :=
  (if n.negative then ['-'] else []) ++ n.whole ++
    (if n.places = [] then [] else '.' :: n.places) ++
    match n.exponent with
    | none => []
    | some e => 'e' :: (if e < 0 then '-' else '+') :: Nat.toDigits 10 e.natAbs

end Numeral

end FlatTree.Json
