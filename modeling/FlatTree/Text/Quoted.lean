import FlatTree.Text.Unprintable

/-!
# Quoted text in messages

A message that shows a text puts it between double quotes. The quote and the backslash are written
behind a backslash, tab, line feed, carriage return and NUL by a letter or digit, and every other
character that would not show as itself by its number.
-/

namespace FlatTree.Quoted

def shown (c : Char) : List Char :=
  if c = '"' then ['\\', '"']
  else if c = '\\' then ['\\', '\\']
  else if c = '\t' then ['\\', 't']
  else if c = '\r' then ['\\', 'r']
  else if c = '\n' then ['\\', 'n']
  else if c = '\x00' then ['\\', '0']
  else if CharSet.unprintable.has c then
    ['\\', 'u', '\x7b'] ++ Nat.toDigits 16 c.toNat ++ ['\x7d']
  else [c]

def quote (s : String) : String :=
  String.ofList ('"' :: s.toList.flatMap shown ++ ['"'])

end FlatTree.Quoted
