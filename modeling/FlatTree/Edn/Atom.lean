import FlatTree.Edn.Value
import FlatTree.Text.Alphabetic
import FlatTree.Text.Numeric

/-!
# Atoms

An atom is a run of letters, digits and some signs: a constant, a keyword, a symbol or a number.
What it is depends on its whole text, and a text that is none of them is refused with the reason.
-/

namespace FlatTree.Edn

inductive NameFault where
  | empty
  | slashFirst
  | slashLast
  | colon
  | numericSpace
  | severalSlashes
deriving DecidableEq, Repr

inductive ReadError where
  | emptyInput
  | unexpectedCharacter
  | unexpectedEndOfInput
  | invalidStringEscape
  | invalidCharacter
  | oddMapElements
  | duplicateKey
  | duplicateElement
  | invalidInstant
  | invalidUuid
  | namespacedMapNeedsMap
  | invalidTag
  | keyword (fault : NameFault)
  | symbol (fault : NameFault)
  | badInteger
  | leadingZero
  | badBigInteger
  | badFloat
  | badBigDecimal
deriving DecidableEq, Repr

def ReadError.word : ReadError → String
  | .emptyInput => "EmptyInput"
  | .unexpectedCharacter => "UnexpectedCharacter"
  | .unexpectedEndOfInput => "UnexpectedEndOfInput"
  | .invalidStringEscape => "InvalidStringEscape"
  | .invalidCharacter => "InvalidCharacterSpecification"
  | .oddMapElements => "OddNumberOfMapElements"
  | .duplicateKey => "DuplicateKeyInMap"
  | .duplicateElement => "DuplicateValueInSet"
  | .invalidInstant => "InvalidInst"
  | .invalidUuid => "InvalidUuid"
  | .namespacedMapNeedsMap => "NamespacedMapTagNeedsMap"
  | .invalidTag => "InvalidElementForTag"
  | .keyword .empty => "InvalidKeyword"
  | .keyword .slashFirst => "CannotHaveSlashAtBeginningOfKeyword"
  | .keyword .slashLast => "CannotHaveSlashAtEndOfKeyword"
  | .keyword .colon => "CannotHaveColonInKeyword"
  | .keyword .numericSpace => "InvalidKeyword"
  | .keyword .severalSlashes => "CannotHaveMoreThanOneSlashInKeyword"
  | .symbol .empty => "InvalidSymbol"
  | .symbol .slashFirst => "CannotHaveSlashAtBeginningOfSymbol"
  | .symbol .slashLast => "CannotHaveSlashAtEndOfSymbol"
  | .symbol .colon => "CannotHaveColonInSymbol"
  | .symbol .numericSpace => "InvalidSymbol"
  | .symbol .severalSlashes => "CannotHaveMoreThanOneSlashInSymbol"
  | .badInteger => "BadInt"
  | .leadingZero => "OnlyZeroCanStartWithZero"
  | .badBigInteger => "BadBigInt"
  | .badFloat => "BadFloat"
  | .badBigDecimal => "BadBigDec"

def isAtomChar (c : Char) : Bool :=
  ".*+!-_?$%&=<>/:".toList.contains c || CharSet.alphabetic.has c || CharSet.numeric.has c

/-- Texts that begin like a number: with a digit of any script, or with one behind a sign. -/
def looksNumeric : List Char → Bool
  | '+' :: c :: _ => CharSet.numeric.has c
  | '-' :: c :: _ => CharSet.numeric.has c
  | c :: _ => CharSet.numeric.has c
  | [] => false

/-- The name a text spells. A slash divides the namespace from the name; alone it is a name. -/
def readName (cs : List Char) : Except NameFault Name :=
  if cs = [] then .error .empty
  else if cs = ['/'] then .ok (Name.plain "/")
  else if cs.head? = some '/' then .error .slashFirst
  else if cs.getLast? = some '/' then .error .slashLast
  else if ':' ∈ cs then .error .colon
  else if '/' ∉ cs then .ok (Name.plain (String.ofList cs))
  else
    let space := cs.takeWhile (· ≠ '/')
    let base := (cs.dropWhile (· ≠ '/')).drop 1
    if '/' ∈ base then .error .severalSlashes
    else if looksNumeric space then .error .numericSpace
    else .ok ⟨some (String.ofList space), String.ofList base⟩

/-- A whole number of any size. Underscores may stand anywhere behind the first digit. -/
def readBigInteger? (cs : List Char) : Option Int :=
  let (negative, ds) := Decimal.splitSign cs
  if ds.head?.any Char.isDigit ∧ ds.all (fun c => c.isDigit || c == '_') then
    let n := natOfDigits (ds.filter (· ≠ '_'))
    some (if negative then -(n : Int) else n)
  else none

def inInt64Range (n : Int) : Bool :=
  decide (-0x8000000000000000 ≤ n) && decide (n < 0x8000000000000000)

/-- The exponent of a decimal of any size: nothing, or `e` or `E` and a whole number, in front of
whose own sign a plus may stand. -/
def readBigExponent? : List Char → Option Int
  | [] => some 0
  | _ :: '+' :: cs => Decimal.readInt? cs
  | _ :: cs => Decimal.readInt? cs

/-- A decimal of any size: a whole number with a point somewhere in it, and an exponent. Whatever
stands behind the point counts as a place, an underscore too: `1.5_0` is `0.150`. -/
def readBigDecimal? (cs : List Char) : Option (Int × Int) := do
  let mark (c : Char) := c != 'e' && c != 'E'
  let base := cs.takeWhile mark
  let exponent ← readBigExponent? (cs.dropWhile mark)
  let places := ((base.dropWhile (· ≠ '.')).drop 1)
  let coefficient ← readBigInteger? (base.takeWhile (· ≠ '.') ++ places)
  if inInt64Range exponent then
    some (coefficient, exponent - places.length)
  else none

/-- The value of a text that looks like a number. A closing `M` or `N` asks for a number of any
size, a point or exponent for a float. -/
def readNumber (cs : List Char) : Except ReadError Value :=
  let body := (Decimal.splitSign cs).2
  if cs.getLast? = some 'M' ∧ cs.count 'M' = 1 then
    match readBigDecimal? cs.dropLast with
    | some (c, e) => .ok (.bigDecimal c e)
    | none => .error .badBigDecimal
  else if cs.any fun c => c == '.' || c == 'e' || c == 'E' then
    match Binary64.read? cs with
    | some x => .ok (.float x)
    | none => .error .badFloat
  else if body.head? = some '0' ∧ body ≠ ['0'] then .error .leadingZero
  else if cs.getLast? = some 'N' ∧ cs.count 'N' = 1 then
    match readBigInteger? cs.dropLast with
    | some n => .ok (.bigInteger n)
    | none => .error .badBigInteger
  else
    match Decimal.readInt? cs with
    | some n => if inInt64Range n then .ok (.integer (Int64.ofInt n)) else .error .badInteger
    | none => .error .badInteger

def readAtom (cs : List Char) : Except ReadError Value :=
  if cs = "nil".toList then .ok .nil
  else if cs = "true".toList then .ok (.boolean true)
  else if cs = "false".toList then .ok (.boolean false)
  else
    match cs with
    | ':' :: body =>
      match readName body with
      | .ok n => .ok (.keyword n)
      | .error f => .error (.keyword f)
    | _ =>
      match readName cs with
      | .ok n => if n.space = none ∧ looksNumeric cs then readNumber cs else .ok (.symbol n)
      | .error f => .error (.symbol f)

end FlatTree.Edn
