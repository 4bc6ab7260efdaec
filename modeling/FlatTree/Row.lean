import FlatTree.Attribute
import FlatTree.Interval
import FlatTree.Text.Quoted

/-!
# Rows and nodes

A row is what is stored of a node: its identity, its place and its attributes. A node handed out by
a query may carry counts of its children besides, which are never stored. Rows are told apart by
identity alone.
-/

namespace FlatTree

structure Row where
  id : NodeId
  interval : Interval
  attributes : Attributes
deriving DecidableEq, Repr

namespace Row

def stringAttribute? (r : Row) (name : String) : Option String :=
  match r.attributes.get? name with
  | some (.string s) => some s
  | _ => none

def text (r : Row) : String :=
  let head := s!"{r.id.text} {r.interval.text}"
  match r.stringAttribute? "name" with
  | some name => head ++ " " ++ Quoted.quote name
  | none => head

/-- Whether two rows, perhaps of different tables, are of one identity. -/
def same (a b : Row) : Bool :=
  a.id == b.id

def distinct (rows : List Row) : Nat :=
  (rows.map (·.id)).eraseDups.length

end Row

structure Node extends Row where
  directChildren : Option Nat
  descendants : Option Nat
deriving DecidableEq, Repr

def Row.toNode (r : Row) : Node :=
  ⟨r, none, none⟩

end FlatTree
