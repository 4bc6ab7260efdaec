import FlatTree.Binary64
import FlatTree.Instant
import FlatTree.Uuid

/-!
# Values of the data notation

A value is a leaf (nothing, a truth value, a character, a text, a name, one of four kinds of
number, an instant, an identifier), a collection of values, or a value under a tag.
-/

namespace FlatTree.Edn

structure Name where
  space : Option String
  base : String
deriving DecidableEq, Repr

namespace Name

def plain (base : String) : Name :=
  ⟨none, base⟩

def qualified (n : Name) : String :=
  match n.space with
  | none => n.base
  | some space => space ++ "/" ++ n.base

/-- The name a folded text stands for: it is cut at its first slash if something stands on both
sides, and is a name outside any namespace otherwise. -/
def ofQualified (text : String) : Name :=
  let cs := text.toList
  let space := cs.takeWhile (· ≠ '/')
  match cs.dropWhile (· ≠ '/') with
  | [] => plain text
  | _ :: base =>
    if space = [] ∨ base = [] then plain text
    else ⟨some (String.ofList space), String.ofList base⟩

end Name

inductive Value where
  | nil
  | boolean (b : Bool)
  | character (c : Char)
  | string (s : String)
  | symbol (n : Name)
  | keyword (n : Name)
  | integer (i : Int64)
  | float (x : Binary64)
  | bigInteger (i : Int)
  | bigDecimal (coefficient exponent : Int)
  | list (items : List Value)
  | vector (items : List Value)
  | map (entries : List (Value × Value))
  | set (items : List Value)
  | instant (t : Instant)
  | uuid (u : Uuid)
  | tagged (tag : Name) (value : Value)
deriving Repr

end FlatTree.Edn
