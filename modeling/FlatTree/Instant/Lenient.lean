import FlatTree.Instant.Text
import FlatTree.Text.WhiteSpace

/-!
# Instants read leniently

Documents written by other programs spell instants more freely than the written form. Here blanks
may stand before every part, a number may have fewer digits than its place, a year may have a sign
and then more digits, the two numbers of an offset need no colon between them, and `UTC` stands for
the offset zero.
-/

namespace FlatTree.Instant

def dropBlanks (cs : List Char) : List Char :=
  cs.dropWhile CharSet.whiteSpace.has

/-- A number of at least one digit and at most `width`, and what follows it. Blanks may stand in
front. -/
def takeNumber? (width : Nat) (cs : List Char) : Option (Nat × List Char) :=
  let cs := dropBlanks cs
  let ds := (cs.take width).takeWhile Char.isDigit
  if ds = [] then none else some (natOfDigits ds, cs.drop ds.length)

def skipMark? (mark : Char) (cs : List Char) : Option (List Char) :=
  skipChar? (· == mark) (dropBlanks cs)

def takeDigitRun? (cs : List Char) : Option (Nat × List Char) :=
  let ds := cs.takeWhile Char.isDigit
  if ds = [] then none else some (natOfDigits ds, cs.dropWhile Char.isDigit)

/-- A year: up to four digits, or any number of them behind a sign. -/
def takeYear? (cs : List Char) : Option (Int × List Char) :=
  match dropBlanks cs with
  | '+' :: cs => (takeDigitRun? cs).map fun (n, rest) => ((n : Int), rest)
  | '-' :: cs => (takeDigitRun? cs).map fun (n, rest) => (-(n : Int), rest)
  | cs => (takeNumber? 4 cs).map fun (n, rest) => ((n : Int), rest)

/-- Two digits for the hours, any colons and blanks, and two digits for the minutes, at the end. -/
def readHoursAndMinutes? (cs : List Char) : Option Nat := do
  let (hours, cs) ← takeDigits? 2 cs
  let cs := cs.dropWhile fun c => c == ':' || CharSet.whiteSpace.has c
  let (minutes, cs) ← takeDigits? 2 cs
  if dropBlanks cs ≠ [] ∨ 60 ≤ minutes then none else some (60 * hours + minutes)

def readLenientOffset? (cs : List Char) : Option Int :=
  let onlyBlanks (cs : List Char) : Option Int := if dropBlanks cs = [] then some 0 else none
  match dropBlanks cs with
  | [] => none
  | c :: cs =>
    if c = '+' then (readHoursAndMinutes? cs).map fun n => (n : Int)
    else if c = '-' ∨ c = '\u2212' then (readHoursAndMinutes? cs).map fun n => -(n : Int)
    else if ((c :: cs).take 3).map Char.toLower = "utc".toList then onlyBlanks (cs.drop 2)
    else if c = 'Z' ∨ c = 'z' then onlyBlanks cs
    else none

def readLenientClock? (cs : List Char) : Option ClockReading := do
  let (year, cs) ← takeYear? cs
  let cs ← skipMark? '-' cs
  let (month, cs) ← takeNumber? 2 cs
  let cs ← skipMark? '-' cs
  let (day, cs) ← takeNumber? 2 cs
  let cs ← skipChar? (fun c => c == 'T' || c == 't' || c == ' ') cs
  let (hour, cs) ← takeNumber? 2 cs
  let cs ← skipMark? ':' cs
  let (minute, cs) ← takeNumber? 2 cs
  let cs ← skipMark? ':' cs
  let (second, cs) ← takeNumber? 2 cs
  let (nano, cs) ← readFraction? cs
  let offset ← readLenientOffset? cs
  pure ⟨year, month, day, hour, minute, second, nano, offset⟩

def readLenient? (cs : List Char) : Option Instant := do
  let r ← readLenientClock? cs
  if h : r.Valid then some ⟨r, h⟩ else none

end FlatTree.Instant
