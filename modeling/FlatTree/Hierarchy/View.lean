import FlatTree.External
import FlatTree.Hierarchy.Change
import FlatTree.Settings

/-!
# The hierarchy seen from outside

Queries and changes whose nodes are external ones, with stored identities for external ones. A
child refers to its parent; a node fetched by itself refers to none.
-/

namespace FlatTree

namespace Table

def viewById (t : Table) (id : NodeId) : Except TreeError ExternalNode := do
  let r ← t.require id
  pure (ExternalNode.ofNode r.toNode)

def viewChildrenOf (t : Table) (keys : List SortKey) (parent : Option NodeId) (mode : Annotate) :
    Except TreeError (List ExternalNode) := do
  let parent ← match parent with
    | some id => pure id
    | none => (t.requireRoot).map (·.id)
  let children ← t.childrenOfAnnotated keys parent true mode
  pure (children.map (ExternalNode.ofChild parent))

end Table

namespace Work

/-- Where a node without a reference goes: under the root, which is stored first, without
attributes, if there is none. -/
def rootOrNew (w : Work) : Except TreeError (NodeId × Work) := do
  match ← w.table.root? with
  | some root => pure (root.id, w)
  | none =>
    let (root, w) ← w.insertRoot Dict.empty
    pure (root.id, w)

def save (w : Work) (n : ExternalNode) : Except TreeError (ExternalNode × Work) := do
  let (parent, w) ← match n.parent with
    | some id => pure (⟨id⟩, w)
    | none => w.rootOrNew
  let (r, w) ← w.insertUnder n.attributes (some parent)
  pure (ExternalNode.ofChild parent r.toNode, w)

end Work

namespace Store

def save (s : Store) (faults : Faults) (n : ExternalNode) : Except TreeError ExternalNode × Store :=
  s.change faults fun w => w.save n

end Store

end FlatTree
