import FlatTree.Attribute
import FlatTree.Edn.Decoder

/-!
# Attributes as values of the data notation

Seven kinds of attribute have a kind of value of their own. A reference to a node is a tagged
integer, so only references below `2 ^ 63` have a form.
-/

namespace FlatTree

open Edn

inductive EncodingError where
  | refOutOfRange (id : NodeId)
  | integerOutOfRange (key : String) (value : Nat)
deriving DecidableEq, Repr

def EncodingError.message : EncodingError → String
  | .refOutOfRange id => s!"Node id {id.text} does not fit in an EDN integer"
  | .integerOutOfRange key value => s!"Value {value} of {key} does not fit in an EDN integer"

namespace Attribute

def refTag : Name :=
  ⟨some "nestedset", "ref"⟩

def toEdn : Attribute → Except EncodingError Value
  | .boolean b => .ok (.boolean b)
  | .long n => .ok (.integer n)
  | .double x => .ok (.float x)
  | .string s => .ok (.string s)
  | .keyword name => .ok (.keyword (Name.ofQualified name))
  | .instant t => .ok (.instant t)
  | .uuid u => .ok (.uuid u)
  | .ref id =>
    if id.val < 0x8000000000000000 then .ok (.tagged refTag (.integer (Int64.ofNat id.val)))
    else .error (.refOutOfRange id)

def ofEdn (v : Value) : Except DecodingError Attribute :=
  match v with
  | .boolean b => .ok (.boolean b)
  | .integer n => .ok (.long n)
  | .float x => .ok (.double x)
  | .string s => .ok (.string s)
  | .keyword n => .ok (.keyword n.qualified)
  | .instant t => .ok (.instant t)
  | .uuid u => .ok (.uuid u)
  | .tagged tag element =>
    if tag = refTag then
      match element with
      | .integer i =>
        if 0 ≤ i then .ok (.ref ⟨i.toInt.toNat⟩) else .error (.expected .nodeId element)
      | _ => .error (.expected .nodeId element)
    else .error (.expected .attributeValue v)
  | _ => .error (.expected .attributeValue v)

end Attribute

end FlatTree
