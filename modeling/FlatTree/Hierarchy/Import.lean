import FlatTree.External
import FlatTree.Hierarchy.Change

/-!
# Importing a forest

A forest is brought in level by level under one stored node. Nodes without a parent, and those
whose parent is the sentinel, go under that node; when a node is stored, the nodes that refer to
its external identity join the end of a queue. What is never reached is left out, or makes the
whole import fail.
-/

namespace FlatTree

/-- What becomes of nodes whose chain of parents does not lead to the top of the forest. -/
inductive Dangling where
  | drop
  | fail
deriving DecidableEq, Repr

structure ImportSettings where
  /-- The reference that stands for no parent. -/
  sentinel : Option Nat
  dangling : Dangling
deriving DecidableEq, Repr

def ImportSettings.default : ImportSettings :=
  ⟨some 0, .drop⟩

/-- How many nodes were stored, under which identities, and the positions that were left out. An
external identity that repeats stands for the first node that was stored with it. -/
structure ImportReport where
  inserted : Nat
  idMap : Dict Nat NodeId
  dropped : List Nat
deriving DecidableEq, Repr

namespace Import

def isTop (sentinel : Option Nat) (n : ExternalNode) : Bool :=
  n.parent.isNone || n.parent == sentinel

def firstRepeated? : List Nat → List Nat → Option Nat
  | _, [] => none
  | seen, id :: ids => if id ∈ seen then some id else firstRepeated? (id :: seen) ids

def checkReferences (sentinel : Option Nat) (forest : Forest) : Except TreeError Unit :=
  let ids := forest.filterMap (·.id)
  match firstRepeated? [] ids with
  | some id => .error (.duplicateExternalId id)
  | none =>
    let dangling := forest.findSome? fun n =>
      if isTop sentinel n then none
      else n.parent.bind fun p => if p ∈ ids then none else some (n.id, p)
    match dangling with
    | some (id, p) => .error (.danglingParent id p)
    | none => .ok ()

def topNodes (sentinel : Option Nat) (forest : Forest) : List (ExternalNode × Nat) :=
  forest.zipIdx.filter fun (n, _) => isTop sentinel n

def nodesUnder (sentinel : Option Nat) (forest : Forest) (id : Option Nat) :
    List (ExternalNode × Nat) :=
  forest.zipIdx.filter fun (n, _) => id.isSome && !isTop sentinel n && n.parent == id

/-- What has been done so far: the work, the positions not yet visited, and the report but for the
positions left out. -/
structure Progress where
  work : Work
  waiting : List Nat
  inserted : Nat
  idMap : Dict Nat NodeId

/-- Notes the identity of a stored node, unless its external identity has one. -/
def note (idMap : Dict Nat NodeId) (id : Option Nat) (stored : NodeId) : Dict Nat NodeId :=
  match id with
  | none => idMap
  | some id => if (idMap.get? id).isSome then idMap else idMap.put id stored

/-- Works through a queue of positions, each with the stored node it goes under. A position that
was visited is passed over, so that no position is stored twice. -/
def run (sentinel : Option Nat) (forest : Forest) (p : Progress) :
    List ((ExternalNode × Nat) × NodeId) → Except TreeError Progress
  | [] => .ok p
  | ((n, i), parent) :: queue =>
    if h : i ∈ p.waiting then
      have : (p.waiting.erase i).length < p.waiting.length := by
        have := List.length_pos_of_mem h
        rw [List.length_erase_of_mem h]
        omega
      match p.work.insertUnder n.attributes (some parent) with
      | .error e => .error e
      | .ok (r, w) =>
        run sentinel forest ⟨w, p.waiting.erase i, p.inserted + 1, note p.idMap n.id r.id⟩
          (queue ++ (nodesUnder sentinel forest n.id).map (·, r.id))
    else run sentinel forest p queue
termination_by queue => (p.waiting.length, queue.length)

section Run

variable {sentinel : Option Nat} {forest : Forest} {p : Progress} {n : ExternalNode} {i : Nat}
  {parent : NodeId} {queue : List ((ExternalNode × Nat) × NodeId)}

theorem run_nil : run sentinel forest p [] = .ok p := by
  rw [run]

theorem run_pass (hi : i ∉ p.waiting) :
    run sentinel forest p (((n, i), parent) :: queue) = run sentinel forest p queue := by
  rw [run, dif_neg hi]

theorem run_store {r : Row} {w : Work} (hi : i ∈ p.waiting)
    (hok : p.work.insertUnder n.attributes (some parent) = .ok (r, w)) :
    run sentinel forest p (((n, i), parent) :: queue) =
      run sentinel forest ⟨w, p.waiting.erase i, p.inserted + 1, note p.idMap n.id r.id⟩
        (queue ++ (nodesUnder sentinel forest n.id).map (·, r.id)) := by
  rw [run, dif_pos hi, hok]

theorem run_refused {e : TreeError} (hi : i ∈ p.waiting)
    (herror : p.work.insertUnder n.attributes (some parent) = .error e) :
    run sentinel forest p (((n, i), parent) :: queue) = .error e := by
  rw [run, dif_pos hi, herror]

end Run

end Import

def Work.importForest (w : Work) (settings : ImportSettings) (forest : Forest) (target : NodeId) :
    Except TreeError (ImportReport × Work) :=
  match w.table.get? target with
  | none => .error (.invalidParent (some target))
  | some _ =>
    let queue := (Import.topNodes settings.sentinel forest).map (·, target)
    let start : Import.Progress := ⟨w, List.range forest.length, 0, Dict.empty⟩
    match Import.run settings.sentinel forest start queue with
    | .error e => .error e
    | .ok p =>
      if settings.dangling = .fail ∧ p.waiting ≠ [] then
        .error (.unreachableImport p.waiting.length)
      else .ok (⟨p.inserted, p.idMap, p.waiting⟩, p.work)

/-- Stores a forest under a node in one unit of work. Under the strict policy its references are
checked before. -/
def Store.importForest (s : Store) (faults : Faults) (settings : ImportSettings)
    (forest : Forest) (target : NodeId) : Except TreeError ImportReport × Store :=
  let references := match settings.dangling with
    | .fail => Import.checkReferences settings.sentinel forest
    | .drop => .ok ()
  match references with
  | .error e => (.error e, s)
  | .ok () => s.change faults fun w => w.importForest settings forest target

end FlatTree
