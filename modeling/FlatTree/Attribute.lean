import FlatTree.Binary64
import FlatTree.Dict
import FlatTree.Instant
import FlatTree.NodeId
import FlatTree.Uuid

/-!
# Attributes of nodes

A node carries named values of eight kinds. Values of any two kinds are comparable, by kind first,
so that every attribute can serve as a sort key.
-/

namespace FlatTree

inductive Attribute where
  | boolean (b : Bool)
  | long (n : Int64)
  | double (x : Binary64)
  | string (s : String)
  | keyword (name : String)
  | instant (t : Instant)
  | uuid (u : Uuid)
  | ref (id : NodeId)
deriving DecidableEq, Repr

namespace Attribute

def rank : Attribute → Nat
  | .boolean _ => 0
  | .long _ => 1
  | .double _ => 2
  | .string _ => 3
  | .keyword _ => 4
  | .instant _ => 5
  | .uuid _ => 6
  | .ref _ => 7

/-- Within a kind: false before true, numbers by size, texts by code point, instants by moment. -/
def order : Attribute → Attribute → Ordering
  | .boolean a, .boolean b => compare a b
  | .long a, .long b => compare a b
  | .double a, .double b => compare a b
  | .string a, .string b => compare a b
  | .keyword a, .keyword b => compare a b
  | .instant a, .instant b => compare a b
  | .uuid a, .uuid b => compare a b
  | .ref a, .ref b => compare a b
  | a, b => compare a.rank b.rank

instance : Ord Attribute := ⟨order⟩

end Attribute

abbrev Attributes := Dict String Attribute

/-- Equality of the values, under which the zeros, all NaNs, and two readings of one moment are
the same. -/
def sameAttributes (a b : Attributes) : Bool :=
  a.keys == b.keys &&
    (a.entries.zip b.entries).all fun (x, y) => compare x.2 y.2 == .eq

end FlatTree
