import FlatTree.Hierarchy.Error
import FlatTree.Proofs.Tour

/-!
# Changes of a tree

What the changes of a hierarchy mean, told on an ordered tree and without a number: a node is added
as a last child, becomes the root of nothing, or goes with all that is below it. An outline is such
a tree, or none, with the number of the next node.
-/

namespace FlatTree

def Item.row (x : Item) (i : Interval) : Row :=
  ⟨x.id, i, x.attributes⟩

def Row.item (r : Row) : Item :=
  ⟨r.id, r.attributes⟩

namespace Tree

/-- A new last child for a node. -/
def insertUnder (parent : NodeId) (x : Item) (t : Tree Item) : Tree Item :=
  let below := t.below.insertUnder parent x
  ⟨t.root, if t.root.id = parent then below.snoc x else below⟩

/-- Without a node and all that is below it; nothing is left if that is the root. -/
def remove? (id : NodeId) (t : Tree Item) : Option (Tree Item) :=
  if t.root.id = id then none else some ⟨t.root, t.below.remove id⟩

/-- The row of the root. -/
def rootRow (t : Tree Item) : Row :=
  t.root.row ⟨1, t.below.stop 2, 0⟩

end Tree

/-- A tree or none, and the number the next node will get. -/
structure Outline where
  tree : Option (Tree Item)
  nextId : Nat
deriving DecidableEq, Repr

namespace Outline

def empty : Outline :=
  ⟨none, 1⟩

def grove (o : Outline) : Grove Item :=
  match o.tree with
  | none => .nil
  | some t => t.grove

def ids (o : Outline) : List NodeId :=
  o.grove.ids

/-- Every node with its identity, its attributes and its interval in the numbering of the tree. -/
def rows (o : Outline) : List Row :=
  (o.grove.tour 0 1).map fun e => e.1.row e.2

/-- The next node, with some attributes. -/
def fresh (o : Outline) (attributes : Attributes) : Item :=
  ⟨⟨o.nextId⟩, attributes⟩

/-- The next node alone. -/
def plant (o : Outline) (attributes : Attributes) : Outline :=
  ⟨some ⟨o.fresh attributes, .nil⟩, o.nextId + 1⟩

/-- The next node as the last child of another. -/
def place (o : Outline) (attributes : Attributes) (parent : NodeId) : Outline :=
  ⟨o.tree.map (·.insertUnder parent (o.fresh attributes)), o.nextId + 1⟩

def remove (o : Outline) (id : NodeId) : Outline :=
  ⟨o.tree.bind (·.remove? id), o.nextId⟩

/-- A node goes under its parent, which must be there; without a parent it goes under the root, or
becomes the root. -/
def insert (o : Outline) (attributes : Attributes) :
    Option NodeId → Except TreeError (Item × Outline)
  | some id =>
    if id ∈ o.ids then .ok (o.fresh attributes, o.place attributes id)
    else .error (.invalidParent (some id))
  | none =>
    match o.tree with
    | some t => .ok (o.fresh attributes, o.place attributes t.root.id)
    | none => .ok (o.fresh attributes, o.plant attributes)

/-- There is one root at most. -/
def insertRoot (o : Outline) (attributes : Attributes) : Except TreeError (Item × Outline) :=
  match o.tree with
  | some t => .error (.rootAlreadyExists t.root.id)
  | none => .ok (o.fresh attributes, o.plant attributes)

/-- A node goes with all that is below it, if that is asked for or there is nothing below it. The
answer is how many nodes went. -/
def delete (o : Outline) (id : NodeId) (withDescendants : Bool) :
    Except TreeError (Nat × Outline) :=
  match o.grove.subtree? id with
  | none => .error (.notFound id)
  | some t =>
    if t.below.size ≠ 0 ∧ withDescendants = false then .error (.hasChildren id t.below.size)
    else .ok (t.below.size + 1, o.remove id)

theorem map_item_rows (o : Outline) : o.rows.map Row.item = o.grove.items := by
  rw [rows, List.map_map, ← Grove.map_fst_tour o.grove 0 1]
  rfl

theorem map_id_rows (o : Outline) : o.rows.map (·.id) = o.ids := by
  rw [ids, Grove.ids, ← map_item_rows, List.map_map]
  rfl

theorem mem_rows {o : Outline} {r : Row} :
    r ∈ o.rows ↔ (r.item, r.interval) ∈ o.grove.tour 0 1 := by
  rw [rows, List.mem_map]
  constructor
  · rintro ⟨e, he, rfl⟩
    exact he
  · exact fun h => ⟨_, h, rfl⟩

theorem length_rows (o : Outline) : o.rows.length = o.grove.size := by
  rw [rows, List.length_map, Grove.length_tour]

theorem grove_plant (o : Outline) (attributes : Attributes) :
    (o.plant attributes).grove = .cons (o.fresh attributes) .nil .nil := rfl

theorem grove_place (o : Outline) (attributes : Attributes) (parent : NodeId) :
    (o.place attributes parent).grove = o.grove.insertUnder parent (o.fresh attributes) := by
  obtain ⟨_ | t, n⟩ := o <;> rfl

theorem grove_remove (o : Outline) (id : NodeId) : (o.remove id).grove = o.grove.remove id := by
  obtain ⟨_ | t, n⟩ := o
  · rfl
  · by_cases h : t.root.id = id
    · simp [remove, grove, Tree.remove?, Tree.grove, Grove.remove, h]
    · simp [remove, grove, Tree.remove?, Tree.grove, Grove.remove, h]

end Outline

end FlatTree
