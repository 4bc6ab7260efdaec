import FlatTree.Hierarchy.Error
import FlatTree.Numbering

/-!
# Queries

What a hierarchy answers about its nodes, read off the intervals of a table: descendants are the
rows strictly inside, ancestors the rows strictly around, and one more depth picks out children or
one ancestor.
-/

namespace FlatTree

inductive Annotate where
  | none
  | direct
  | recursive
  | both
deriving DecidableEq, Repr

namespace Table

def require (t : Table) (id : NodeId) : Except TreeError Row :=
  match t.get? id with
  | some r => .ok r
  | none => .error (.notFound id)

/-- The root, if there is a row. Two rows in its place mean that the table is corrupt. -/
def root? (t : Table) : Except TreeError (Option Row) :=
  match t.find Filter.root [] with
  | [] => .ok none
  | [r] => .ok (some r)
  | roots => .error (.corruptTree (Violation.duplicateRoot roots.length).message)

def requireRoot (t : Table) : Except TreeError Row := do
  match ← t.root? with
  | some r => .ok r
  | none => .error .rootMissing

def childrenOf (t : Table) (keys : List SortKey) (parent : NodeId) (directOnly : Bool) :
    Except TreeError (List Row) := do
  let r ← t.require parent
  pure (t.find (Filter.below r.interval directOnly) keys)

def childCount (t : Table) (parent : NodeId) (directOnly : Bool) : Except TreeError Nat := do
  let r ← t.require parent
  pure (t.count (Filter.below r.interval directOnly))

/-- Attaches the count of children, or of all descendants, that the table has now for the
identity, whatever place the node had when it was fetched. -/
def annotateNode (t : Table) (directOnly : Bool) (n : Node) : Except TreeError Node := do
  let count ← t.childCount n.id directOnly
  pure (if directOnly then { n with directChildren := some count }
    else { n with descendants := some count })

/-- Attaches counts from the front. At the first identity that is gone the rest is left as it is. -/
def annotate (t : Table) (directOnly : Bool) : List Node → List Node × Except TreeError Unit
  | [] => ([], .ok ())
  | n :: nodes =>
    match t.annotateNode directOnly n with
    | .error e => (n :: nodes, .error e)
    | .ok n' =>
      let (rest, outcome) := t.annotate directOnly nodes
      (n' :: rest, outcome)

def annotateAll (t : Table) (directOnly : Bool) (nodes : List Node) :
    Except TreeError (List Node) :=
  let (nodes, outcome) := t.annotate directOnly nodes
  outcome.map fun _ => nodes

def childrenOfAnnotated (t : Table) (keys : List SortKey) (parent : NodeId) (directOnly : Bool)
    (mode : Annotate) : Except TreeError (List Node) := do
  let nodes := (← t.childrenOf keys parent directOnly).map Row.toNode
  match mode with
  | .none => pure nodes
  | .direct => t.annotateAll true nodes
  | .recursive => t.annotateAll false nodes
  | .both => t.annotateAll false (← t.annotateAll true nodes)

theorem annotate_rows (t : Table) (directOnly : Bool) (nodes : List Node) :
    (t.annotate directOnly nodes).1.map Node.toRow = nodes.map Node.toRow := by
  induction nodes with
  | nil => rfl
  | cons n nodes ih =>
    simp only [annotate]
    split
    · rfl
    · next n' h =>
      have hrow : n'.toRow = n.toRow := by
        simp only [annotateNode] at h
        cases hc : t.childCount n.id directOnly with
        | error e => simp [hc, bind, Except.bind] at h
        | ok count =>
          simp only [hc, bind, Except.bind, pure, Except.pure, Except.ok.injEq] at h
          subst h
          split <;> rfl
      simp [hrow, ih]

theorem annotateAll_rows {t : Table} {directOnly : Bool} {nodes nodes' : List Node}
    (h : t.annotateAll directOnly nodes = .ok nodes') :
    nodes'.map Node.toRow = nodes.map Node.toRow := by
  simp only [annotateAll] at h
  cases ho : (t.annotate directOnly nodes).2 with
  | error e => simp [ho, Except.map] at h
  | ok u =>
    simp only [ho, Except.map, Except.ok.injEq] at h
    exact h ▸ t.annotate_rows directOnly nodes

theorem childrenOfAnnotated_rows {t : Table} {keys : List SortKey} {parent : NodeId}
    {directOnly : Bool} {mode : Annotate} {nodes : List Node}
    (h : t.childrenOfAnnotated keys parent directOnly mode = .ok nodes) :
    ∃ r, t.get? parent = some r ∧
      nodes.map Node.toRow = t.find (Filter.below r.interval directOnly) keys := by
  simp only [childrenOfAnnotated, childrenOf, require] at h
  cases hr : t.get? parent with
  | none => simp [hr, bind, Except.bind] at h
  | some r =>
    refine ⟨r, rfl, ?_⟩
    simp only [hr, bind, Except.bind, pure, Except.pure] at h
    have hplain : ((t.find (Filter.below r.interval directOnly) keys).map Row.toNode).map
        Node.toRow = t.find (Filter.below r.interval directOnly) keys := by
      simp [Row.toNode, Function.comp_def]
    cases mode with
    | none => cases h; exact hplain
    | direct => exact (annotateAll_rows h).trans hplain
    | recursive => exact (annotateAll_rows h).trans hplain
    | both =>
      simp only at h
      split at h
      · cases h
      · next h' => exact ((annotateAll_rows h).trans (annotateAll_rows h')).trans hplain

/-- The depth that a request means: as it is, or, if negative, counted up from the child; none if
that goes beyond the root. -/
def ancestorDepth? (childDepth : Nat) (depth : Int) : Option Nat :=
  let target := if depth < 0 then (childDepth : Int) + depth else depth
  if target < 0 then none else some target.toNat

def onlyAncestor (child : NodeId) (depth : Nat) : List Row → Except TreeError (Option Row)
  | [] => .ok none
  | [r] => .ok (some r)
  | rows => .error (.corruptTree s!"{rows.length} ancestors of {child.text} at depth {depth}")

def parentOf (t : Table) (child : NodeId) (depth : Int) : Except TreeError (Option Row) := do
  let r ← t.require child
  match ancestorDepth? r.interval.depth depth with
  | none => .error (.invalidDepth r.interval.depth depth)
  | some d => onlyAncestor r.id d (t.find ((Filter.around r.interval).atDepth d) [])

def verify (t : Table) : Except TreeError Summary :=
  match Numbering.check t.snapshot with
  | .ok s => .ok s
  | .error v => .error (.corruptTree v.message)

end Table

end FlatTree
