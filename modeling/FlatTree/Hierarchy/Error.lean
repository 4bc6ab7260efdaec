import FlatTree.Store

/-!
# Errors of hierarchies
-/

namespace FlatTree

inductive TreeError where
  | notFound (id : NodeId)
  | invalidParent (id : Option NodeId)
  | rootAlreadyExists (id : NodeId)
  | rootMissing
  | hasChildren (id : NodeId) (descendants : Int)
  | invalidDepth (childDepth : Nat) (requested : Int)
  | corruptTree (reason : String)
  | danglingParent (externalId : Option Nat) (parent : Nat)
  | unreachableImport (count : Nat)
  | duplicateExternalId (id : Nat)
  | store (error : StoreError)
deriving DecidableEq, Repr

namespace TreeError

def optional : Option String → String
  | some s => s!"Some({s})"
  | none => "None"

def message : TreeError → String
  | .notFound id => s!"Node {id.text} does not exist"
  | .invalidParent id =>
    let shown := optional (id.map fun i => s!"NodeId({i.val})")
    s!"Parent {shown} does not resolve to an existing node"
  | .rootAlreadyExists id => s!"Tree already has a root node ({id.text})"
  | .rootMissing => "Tree has no root node"
  | .hasChildren id n =>
    s!"Node {id.text} has {n} descendant(s) and children deletion was not requested"
  | .invalidDepth childDepth requested =>
    s!"Requested ancestor depth {requested} is above the root (child depth {childDepth})"
  | .corruptTree reason => s!"Tree is corrupt: {reason}"
  | .danglingParent externalId parent =>
    let shown := optional (externalId.map toString)
    s!"External node {shown} references parent {parent} which is not part of the import"
  | .unreachableImport n => s!"{n} node(s) of the import are not reachable from its root"
  | .duplicateExternalId id => s!"External id {id} appears more than once in the import"
  | .store e => e.message

end TreeError

end FlatTree
