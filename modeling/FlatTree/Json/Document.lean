import FlatTree.Json.Numeral
import FlatTree.Uuid

/-!
# JSON documents

A document is kept as it is spelled: its texts are the characters between the quotes, escapes
included, so that a text that is passed over need not stand for anything. Escaping and unescaping
connect spellings with texts.
-/

namespace FlatTree.Json

inductive Document where
  | null
  | boolean (b : Bool)
  | number (n : Numeral)
  | string (spelling : List Char)
  | array (items : List Document)
  | object (members : List (List Char × Document))
deriving Repr

def hexPair (n : Nat) : List Char :=
  [Nat.digitChar (n / 16), Nat.digitChar (n % 16)]

/-- The spelling of one character. Only the quote, the backslash and controls are escaped. -/
def escapeChar (c : Char) : List Char :=
  if c = '"' then ['\\', '"']
  else if c = '\\' then ['\\', '\\']
  else if c = '\x08' then ['\\', 'b']
  else if c = '\x0c' then ['\\', 'f']
  else if c = '\n' then ['\\', 'n']
  else if c = '\r' then ['\\', 'r']
  else if c = '\t' then ['\\', 't']
  else if c.toNat < 0x20 then ['\\', 'u', '0', '0'] ++ hexPair c.toNat
  else [c]

def escape (s : String) : List Char :=
  s.toList.flatMap escapeChar

def shortEscape? : Char → Option Char
  | '"' => some '"'
  | '\\' => some '\\'
  | '/' => some '/'
  | 'b' => some '\x08'
  | 'f' => some '\x0c'
  | 'n' => some '\n'
  | 'r' => some '\r'
  | 't' => some '\t'
  | _ => none

/-- The text of a spelling. Two escapes of four digits may make up one character; half of such a
pair stands for nothing. -/
def unescape? : List Char → Option (List Char)
  | [] => some []
  | '\\' :: 'u' :: a :: b :: c :: d :: rest => do
    let n ← natOfHex? [a, b, c, d]
    if n < 0xd800 ∨ 0xdfff < n then (unescape? rest).map (Char.ofNat n :: ·)
    else if 0xdc00 ≤ n then none
    else
      match rest with
      | '\\' :: 'u' :: a :: b :: c :: d :: rest => do
        let m ← natOfHex? [a, b, c, d]
        if 0xdc00 ≤ m ∧ m ≤ 0xdfff then
          (unescape? rest).map (Char.ofNat (0x10000 + (n - 0xd800) * 0x400 + (m - 0xdc00)) :: ·)
        else none
      | _ => none
  | '\\' :: c :: rest => do
    let e ← shortEscape? c
    (unescape? rest).map (e :: ·)
  | ['\\'] => none
  | c :: rest => (unescape? rest).map (c :: ·)

def textOf? (spelling : List Char) : Option String :=
  (unescape? spelling).map String.ofList

namespace Document

def ofText (s : String) : Document :=
  .string (escape s)

def quoted (spelling : List Char) : List Char :=
  '"' :: spelling ++ ['"']

mutual

def chars : Document → List Char
  | .null => "null".toList
  | .boolean b => (if b then "true" else "false").toList
  | .number n => n.chars
  | .string spelling => quoted spelling
  | .array items => '[' :: itemsChars items ++ [']']
  | .object members => '\x7b' :: membersChars members ++ ['\x7d']

def itemsChars : List Document → List Char
  | [] => []
  | [d] => d.chars
  | d :: e :: ds => d.chars ++ ',' :: itemsChars (e :: ds)

def membersChars : List (List Char × Document) → List Char
  | [] => []
  | [(key, d)] => quoted key ++ ':' :: d.chars
  | (key, d) :: m :: ms => quoted key ++ ':' :: d.chars ++ ',' :: membersChars (m :: ms)

end

def text (d : Document) : String :=
  String.ofList d.chars

end Document

end FlatTree.Json
