import FlatTree.Hierarchy.Query

/-!
# Changes

Every change of a hierarchy is a unit of work of a few writes. An insertion opens a gap at the right
bound of the parent and stores the new row there; a deletion takes out what lies in the node's
interval and closes the gap.
-/

namespace FlatTree

namespace Work

def lift {α : Type} : Except StoreError α → Except TreeError α
  | .ok a => .ok a
  | .error e => .error (.store e)

/-- Moves both bounds of every row, all left bounds first. -/
def applyShift (w : Work) (s : Shift) : Except TreeError Work := do
  let (_, w) ← lift (w.shift .left s)
  let (_, w) ← lift (w.shift .right s)
  pure w

def placeUnder (w : Work) (attributes : Attributes) (parent : Row) :
    Except TreeError (Row × Work) := do
  let place := parent.interval.lastChild
  let w ← w.applyShift (Shift.opening place.left)
  lift (w.insert attributes place)

def insertRoot (w : Work) (attributes : Attributes) : Except TreeError (Row × Work) := do
  match ← w.table.root? with
  | some root => throw (.rootAlreadyExists root.id)
  | none => lift (w.insert attributes Interval.root)

/-- Stores a new last child of a node. Without a parent it goes under the root, or becomes the root
of an empty table. -/
def insertUnder (w : Work) (attributes : Attributes) : Option NodeId →
    Except TreeError (Row × Work)
  | some id =>
    match w.table.get? id with
    | some parent => w.placeUnder attributes parent
    | none => throw (.invalidParent (some id))
  | none => do
    match ← w.table.root? with
    | some root => w.placeUnder attributes root
    | none => w.insertRoot attributes

/-- Takes out a node and its descendants, which it may have only if they are asked for; the answer
is the number of rows. -/
def deleteNode (w : Work) (id : NodeId) (withDescendants : Bool) :
    Except TreeError (Nat × Work) := do
  let r ← w.table.require id
  match r.interval.removal withDescendants with
  | .error _ => throw (.hasChildren id r.interval.descendants)
  | .ok removal =>
    let (removed, w) ← lift (w.delete (Filter.within removal.left removal.right))
    if (removed : Int) ≠ removal.rows then
      throw (.corruptTree (s!"interval {r.interval.text} of {id.text} spans {removal.rows} nodes " ++
        s!"but {removed} were stored"))
    let w ← w.applyShift removal.shift
    pure (removed, w)

end Work

namespace Store

def change {α : Type} (s : Store) (faults : Faults) (unit : Work → Except TreeError (α × Work)) :
    Except TreeError α × Store :=
  s.write faults .store unit

def insert (s : Store) (faults : Faults) (attributes : Attributes) (parent : Option NodeId) :
    Except TreeError Row × Store :=
  s.change faults fun w => w.insertUnder attributes parent

def insertRoot (s : Store) (faults : Faults) (attributes : Attributes) :
    Except TreeError Row × Store :=
  s.change faults fun w => w.insertRoot attributes

def delete (s : Store) (faults : Faults) (id : NodeId) (withDescendants : Bool) :
    Except TreeError Nat × Store :=
  s.change faults fun w => w.deleteNode id withDescendants

end Store

end FlatTree
