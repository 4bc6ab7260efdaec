import FlatTree.Decimal
import FlatTree.Instant

/-!
# Instants as text

The written form is `YYYY-MM-DDTHH:MM:SS`, a fraction of three, six or nine digits where it is not
zero, and the offset. A year that does not fit four digits has a sign and as many as it needs, at
least four. Reading takes years of four digits only; it also takes a small `t` or a space before
the time, any number of digits in the fraction, of which nine count, and `Z` or `z` for the offset
zero.
-/

namespace FlatTree

def padded (width n : Nat) : List Char :=
  let ds := Nat.toDigits 10 n
  List.replicate (width - ds.length) '0' ++ ds

def takeDigits? (width : Nat) (cs : List Char) : Option (Nat × List Char) :=
  let ds := cs.take width
  if ds.length = width ∧ ds.all Char.isDigit then some (natOfDigits ds, cs.drop width) else none

def skipChar? (p : Char → Bool) : List Char → Option (List Char)
  | [] => none
  | c :: cs => if p c then some cs else none

namespace Instant

/-- Seconds are followed by a fraction or by nothing. Digits after the ninth do not count. -/
def readFraction? : List Char → Option (Nat × List Char)
  | '.' :: cs =>
    let ds := cs.takeWhile Char.isDigit
    if ds = [] then none
    else
      let kept := ds.take 9
      some (natOfDigits kept * tenTo (9 - kept.length), cs.dropWhile Char.isDigit)
  | cs => some (0, cs)

def readOffset? : List Char → Option Int
  | ['Z'] => some 0
  | ['z'] => some 0
  | sign :: cs => do
    let (hours, cs) ← takeDigits? 2 cs
    let cs ← skipChar? (· == ':') cs
    let (minutes, cs) ← takeDigits? 2 cs
    if cs ≠ [] ∨ 24 ≤ hours ∨ 60 ≤ minutes then none
    else if sign = '+' then some (60 * hours + minutes : Nat)
    else if sign = '-' ∨ sign = '\u2212' then some (-(60 * hours + minutes : Nat))
    else none
  | [] => none

def readClock? (cs : List Char) : Option ClockReading := do
  let (year, cs) ← takeDigits? 4 cs
  let cs ← skipChar? (· == '-') cs
  let (month, cs) ← takeDigits? 2 cs
  let cs ← skipChar? (· == '-') cs
  let (day, cs) ← takeDigits? 2 cs
  let cs ← skipChar? (fun c => c == 'T' || c == 't' || c == ' ') cs
  let (hour, cs) ← takeDigits? 2 cs
  let cs ← skipChar? (· == ':') cs
  let (minute, cs) ← takeDigits? 2 cs
  let cs ← skipChar? (· == ':') cs
  let (second, cs) ← takeDigits? 2 cs
  let (nano, cs) ← readFraction? cs
  let offset ← readOffset? cs
  pure ⟨year, month, day, hour, minute, second, nano, offset⟩

def read? (cs : List Char) : Option Instant := do
  let r ← readClock? cs
  if h : r.Valid then some ⟨r, h⟩ else none

/-- The fewest digits out of 0, 3, 6 and 9 that are exact. -/
def fraction (nano : Nat) : List Char :=
  if nano = 0 then []
  else if nano % 1000000 = 0 then '.' :: padded 3 (nano / 1000000)
  else if nano % 1000 = 0 then '.' :: padded 6 (nano / 1000)
  else '.' :: padded 9 nano

/-- Four digits, or a sign and at least four. -/
def yearText (year : Int) : List Char :=
  if 0 ≤ year ∧ year < 10000 then padded 4 year.toNat
  else (if year < 0 then '-' else '+') :: padded 4 year.natAbs

def clockText (r : ClockReading) : List Char :=
  yearText r.year ++ '-' :: padded 2 r.month ++ '-' :: padded 2 r.day ++ 'T' :: padded 2 r.hour ++
    ':' :: padded 2 r.minute ++ ':' :: padded 2 r.second ++ fraction r.nano

/-- Sign, hours and minutes; zero has a plus. -/
def offsetText (offset : Int) : List Char :=
  (if offset < 0 then '-' else '+') :: padded 2 (offset.natAbs / 60) ++
    ':' :: padded 2 (offset.natAbs % 60)

def text (t : Instant) : List Char :=
  clockText t.reading ++ offsetText t.reading.offset

def textZulu (t : Instant) : List Char :=
  if t.reading.offset = 0 then clockText t.reading ++ ['Z'] else t.text

end Instant

end FlatTree
