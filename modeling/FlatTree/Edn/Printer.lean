import FlatTree.Binary64.Shortest
import FlatTree.Edn.Value
import FlatTree.Instant.Text

/-!
# Writing values

Every value has one written form: items with one space between them, no exponents in numbers, and
escapes only where a text could not be read back without them.
-/

namespace FlatTree.Edn

def escaped : Char → List Char
  | '\t' => ['\\', 't']
  | '\r' => ['\\', 'r']
  | '\n' => ['\\', 'n']
  | '\\' => ['\\', '\\']
  | '"' => ['\\', '"']
  | c => [c]

def quotedChars (cs : List Char) : List Char :=
  '"' :: cs.flatMap escaped ++ ['"']

def namedCharacters : List (List Char × Char) :=
  [("newline".toList, '\n'), ("return".toList, '\r'), ("space".toList, ' '), ("tab".toList, '\t')]

def characterChars (c : Char) : List Char :=
  match namedCharacters.find? (·.2 = c) with
  | some (name, _) => '\\' :: name
  | none => ['\\', c]

/-- Shortest digits; of two equally near decimals the larger is written. -/
def floatChars (x : Binary64) : List Char :=
  if x.isNaN then "NaN".toList
  else (if x.isNegative then ['-'] else []) ++
    (if x.isInfinite then "inf".toList else (x.shortest .up).plain)

def decimalChars (coefficient exponent : Int) : List Char :=
  (if coefficient < 0 then ['-'] else []) ++ (Decimal.mk coefficient.natAbs exponent).plain

mutual

def Value.chars : Value → List Char
  | .nil => "nil".toList
  | .boolean b => (if b then "true" else "false").toList
  | .character c => characterChars c
  | .string s => quotedChars s.toList
  | .symbol n => n.qualified.toList
  | .keyword n => ':' :: n.qualified.toList
  | .integer i => (toString i.toInt).toList
  | .float x => floatChars x
  | .bigInteger i => (toString i).toList ++ ['N']
  | .bigDecimal c e => decimalChars c e ++ ['M']
  | .list items => '(' :: itemsChars items ++ [')']
  | .vector items => '[' :: itemsChars items ++ [']']
  | .map entries => '\x7b' :: entriesChars entries ++ ['\x7d']
  | .set items => '#' :: '\x7b' :: itemsChars items ++ ['\x7d']
  | .instant t => "#inst ".toList ++ quotedChars t.text
  | .uuid u => "#uuid ".toList ++ quotedChars u.text
  | .tagged tag v => '#' :: tag.qualified.toList ++ ' ' :: v.chars

def itemsChars : List Value → List Char
  | [] => []
  | [v] => v.chars
  | v :: w :: vs => v.chars ++ ' ' :: itemsChars (w :: vs)

def entriesChars : List (Value × Value) → List Char
  | [] => []
  | [(k, v)] => k.chars ++ ' ' :: v.chars
  | (k, v) :: e :: es => k.chars ++ ' ' :: v.chars ++ ' ' :: entriesChars (e :: es)

end

def Value.text (v : Value) : String :=
  String.ofList v.chars

end FlatTree.Edn
