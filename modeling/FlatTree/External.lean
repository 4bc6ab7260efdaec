import FlatTree.Row

/-!
# External nodes

A forest comes and goes as a list of external nodes, each with an identity of its own, a reference
to its parent, attributes, and counts of children where they were asked for.
-/

namespace FlatTree

structure ExternalNode where
  id : Option Nat
  parent : Option Nat
  attributes : Attributes
  directChildren : Option Nat
  descendants : Option Nat
deriving DecidableEq, Repr

abbrev Forest := List ExternalNode

namespace ExternalNode

def bare (id parent : Option Nat) : ExternalNode :=
  ⟨id, parent, Dict.empty, none, none⟩

def ofNode (n : Node) : ExternalNode :=
  ⟨some n.id.val, none, n.attributes, n.directChildren, n.descendants⟩

def ofChild (parent : NodeId) (n : Node) : ExternalNode :=
  { ofNode n with parent := some parent.val }

/-- Equality in which attribute values count as the same when neither is less. -/
def same (a b : ExternalNode) : Bool :=
  a.id == b.id && a.parent == b.parent && sameAttributes a.attributes b.attributes &&
    a.directChildren == b.directChildren && a.descendants == b.descendants

end ExternalNode

def sameForest (f g : Forest) : Bool :=
  f.length == g.length && (f.zip g).all fun (a, b) => a.same b

end FlatTree
