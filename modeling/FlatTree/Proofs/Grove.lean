import FlatTree.Row
import Mathlib.Data.List.Nodup

/-!
# Ordered trees

The trees that tables stand for, without any numbers. A grove is an ordered forest in its
first-child and next-sibling form, so that one recursion with two calls reaches every node; a tree
is a root above a grove. Nodes are told apart by identity: the operations below find, add and take
out the node of an identity, and are meant for groves in which no identity occurs twice.
-/

namespace FlatTree

/-- A node without its place: what does not change as long as it is stored. -/
structure Item where
  id : NodeId
  attributes : Attributes
deriving DecidableEq, Repr

/-- No tree at all, or a first tree, which is a label above a grove, and the trees after it. -/
inductive Grove (α : Type) where
  | nil
  | cons (label : α) (below after : Grove α)
deriving DecidableEq, Repr

structure Tree (α : Type) where
  root : α
  below : Grove α
deriving DecidableEq, Repr

namespace Grove

variable {α : Type}

def size : Grove α → Nat
  | nil => 0
  | cons _ below after => below.size + after.size + 1

/-- How many nodes have nothing below them. -/
def leaves : Grove α → Nat
  | nil => 0
  | cons _ nil after => after.leaves + 1
  | cons _ below after => below.leaves + after.leaves

/-- How many levels there are. -/
def height : Grove α → Nat
  | nil => 0
  | cons _ below after => max (below.height + 1) after.height

/-- All labels, each before those below it. -/
def items : Grove α → List α
  | nil => []
  | cons a below after => a :: (below.items ++ after.items)

/-- The labels of the first level. -/
def roots : Grove α → List α
  | nil => []
  | cons a _ after => a :: after.roots

/-- One more tree at the end, with nothing below its root. -/
def snoc : Grove α → α → Grove α
  | nil, x => cons x nil nil
  | cons a below after, x => cons a below (after.snoc x)

@[simp] theorem length_items (g : Grove α) : g.items.length = g.size := by
  induction g with
  | nil => rfl
  | cons a below after ihb iha => simp [items, size, ihb, iha]

@[simp] theorem size_snoc (g : Grove α) (x : α) : (g.snoc x).size = g.size + 1 := by
  induction g with
  | nil => rfl
  | cons a below after _ iha => simp [snoc, size, iha]; omega

@[simp] theorem items_snoc (g : Grove α) (x : α) : (g.snoc x).items = g.items ++ [x] := by
  induction g with
  | nil => rfl
  | cons a below after _ iha => simp [snoc, items, iha]

@[simp] theorem roots_snoc (g : Grove α) (x : α) : (g.snoc x).roots = g.roots ++ [x] := by
  induction g with
  | nil => rfl
  | cons a below after _ iha => simp [snoc, roots, iha]

theorem size_eq_zero_iff (g : Grove α) : g.size = 0 ↔ g = nil := by
  cases g <;> simp [size]

theorem leaves_cons (a : α) (below after : Grove α) :
    (cons a below after).leaves = (if below.size = 0 then 1 else below.leaves) + after.leaves := by
  cases below with
  | nil => simp [leaves, size, Nat.add_comm]
  | cons b below after => simp [leaves, size]

/-! ## Identities -/

def ids (g : Grove Item) : List NodeId :=
  g.items.map (·.id)

/-- A new last child for a node. -/
def insertUnder (parent : NodeId) (x : Item) : Grove Item → Grove Item
  | nil => nil
  | cons a below after =>
    let below := below.insertUnder parent x
    cons a (if a.id = parent then below.snoc x else below) (after.insertUnder parent x)

/-- Without a node and all that is below it. -/
def remove (id : NodeId) : Grove Item → Grove Item
  | nil => nil
  | cons a below after =>
    if a.id = id then after.remove id else cons a (below.remove id) (after.remove id)

/-- A node with all that is below it. -/
def subtree? (id : NodeId) : Grove Item → Option (Tree Item)
  | nil => none
  | cons a below after =>
    if a.id = id then some ⟨a, below⟩ else (below.subtree? id).or (after.subtree? id)

/-- The children of a node, from left to right. -/
def childrenOf (id : NodeId) : Grove Item → List Item
  | nil => []
  | cons a below after =>
    (if a.id = id then below.roots else []) ++ below.childrenOf id ++ after.childrenOf id

@[simp] theorem ids_nil : (nil : Grove Item).ids = [] := rfl

@[simp] theorem ids_cons (a : Item) (below after : Grove Item) :
    (cons a below after).ids = a.id :: (below.ids ++ after.ids) := by
  simp [ids, items]

theorem mem_ids {g : Grove Item} {id : NodeId} : id ∈ g.ids ↔ ∃ x ∈ g.items, x.id = id := by
  simp [ids]

/-- The three places where a label of a grove without repetitions can be exclude each other. -/
theorem nodup_ids_cons {a : Item} {below after : Grove Item} :
    (cons a below after).ids.Nodup ↔
      a.id ∉ below.ids ∧ a.id ∉ after.ids ∧ below.ids.Nodup ∧ after.ids.Nodup ∧
        ∀ id ∈ below.ids, id ∉ after.ids := by
  simp only [ids_cons, List.nodup_cons, List.mem_append, not_or, List.nodup_append]
  constructor
  · rintro ⟨⟨hb, ha⟩, hnb, hna, hdis⟩
    exact ⟨hb, ha, hnb, hna, fun id hid hid' => hdis id hid id hid' rfl⟩
  · rintro ⟨hb, ha, hnb, hna, hdis⟩
    refine ⟨⟨hb, ha⟩, hnb, hna, ?_⟩
    rintro id hid _ hid' rfl
    exact hdis id hid hid'

/-- An identity that stands in one of the three places stands in none of the others. -/
theorem mem_ids_cons_cases {a : Item} {below after : Grove Item} {id : NodeId}
    (hn : (cons a below after).ids.Nodup) (h : id ∈ (cons a below after).ids) :
    (a.id = id ∧ id ∉ below.ids ∧ id ∉ after.ids) ∨
      (id ∈ below.ids ∧ a.id ≠ id ∧ id ∉ after.ids) ∨
        (id ∈ after.ids ∧ a.id ≠ id ∧ id ∉ below.ids) := by
  obtain ⟨hab, haa, -, -, hdis⟩ := nodup_ids_cons.mp hn
  simp only [ids_cons, List.mem_cons, List.mem_append] at h
  rcases h with rfl | h | h
  · exact .inl ⟨rfl, hab, haa⟩
  · exact .inr (.inl ⟨h, fun he => hab (he ▸ h), hdis id h⟩)
  · exact .inr (.inr ⟨h, fun he => haa (he ▸ h), fun hb => hdis id hb h⟩)

theorem insertUnder_of_notMem {g : Grove Item} {parent : NodeId} (h : parent ∉ g.ids) (x : Item) :
    g.insertUnder parent x = g := by
  induction g with
  | nil => rfl
  | cons a below after ihb iha =>
    simp only [ids_cons, List.mem_cons, List.mem_append, not_or] at h
    simp only [insertUnder, ihb h.2.1, iha h.2.2, if_neg (Ne.symm h.1)]

theorem remove_of_notMem {g : Grove Item} {id : NodeId} (h : id ∉ g.ids) : g.remove id = g := by
  induction g with
  | nil => rfl
  | cons a below after ihb iha =>
    simp only [ids_cons, List.mem_cons, List.mem_append, not_or] at h
    simp only [remove, ihb h.2.1, iha h.2.2, if_neg (Ne.symm h.1)]

theorem childrenOf_of_notMem {g : Grove Item} {id : NodeId} (h : id ∉ g.ids) :
    g.childrenOf id = [] := by
  induction g with
  | nil => rfl
  | cons a below after ihb iha =>
    simp only [ids_cons, List.mem_cons, List.mem_append, not_or] at h
    simp [childrenOf, ihb h.2.1, iha h.2.2, Ne.symm h.1]

theorem subtree?_eq_none_iff {g : Grove Item} {id : NodeId} :
    g.subtree? id = none ↔ id ∉ g.ids := by
  induction g with
  | nil => simp [subtree?]
  | cons a below after ihb iha =>
    by_cases ha : a.id = id
    · simp [subtree?, ha]
    · simp [subtree?, ha, Ne.symm ha, ihb, iha]

theorem id_mem_of_subtree? {g : Grove Item} {id : NodeId} {t : Tree Item}
    (h : g.subtree? id = some t) : id ∈ g.ids := by
  by_contra hid
  rw [subtree?_eq_none_iff.mpr hid] at h
  cases h

theorem subtree?_cons_of_below {a : Item} {below after : Grove Item} {id : NodeId} {t : Tree Item}
    (hn : (cons a below after).ids.Nodup) (h : below.subtree? id = some t) :
    (cons a below after).subtree? id = some t := by
  obtain ⟨hab, -, -, -, -⟩ := nodup_ids_cons.mp hn
  have hne : a.id ≠ id := fun he => hab (he ▸ id_mem_of_subtree? h)
  rw [subtree?, if_neg hne, h, Option.some_or]

theorem subtree?_cons_of_after {a : Item} {below after : Grove Item} {id : NodeId} {t : Tree Item}
    (hn : (cons a below after).ids.Nodup) (h : after.subtree? id = some t) :
    (cons a below after).subtree? id = some t := by
  obtain ⟨-, haa, -, -, hdis⟩ := nodup_ids_cons.mp hn
  have hid := id_mem_of_subtree? h
  have hne : a.id ≠ id := fun he => haa (he ▸ hid)
  rw [subtree?, if_neg hne, subtree?_eq_none_iff.mpr fun hb => hdis id hb hid, Option.none_or, h]

/-! ## What an insertion changes -/

theorem items_insertUnder_perm {g : Grove Item} {parent : NodeId} (hn : g.ids.Nodup)
    (h : parent ∈ g.ids) (x : Item) : (g.insertUnder parent x).items.Perm (x :: g.items) := by
  induction g with
  | nil => cases h
  | cons a below after ihb iha =>
    obtain ⟨-, -, hnb, hna, -⟩ := nodup_ids_cons.mp hn
    rcases mem_ids_cons_cases hn h with ⟨rfl, hb, ha⟩ | ⟨h, hne, ha⟩ | ⟨h, hne, hb⟩
    · simp only [insertUnder, insertUnder_of_notMem hb, insertUnder_of_notMem ha, if_true, items,
        items_snoc, List.append_assoc, List.singleton_append]
      exact (List.perm_middle.cons a).trans (.swap ..)
    · simp only [insertUnder, insertUnder_of_notMem ha, if_neg hne, items]
      exact (((ihb hnb h).append_right _).cons a).trans (.swap ..)
    · simp only [insertUnder, insertUnder_of_notMem hb, if_neg hne, items]
      exact ((((iha hna h).append_left _).trans List.perm_middle).cons a).trans (.swap ..)

theorem items_sublist_insertUnder (g : Grove Item) (parent : NodeId) (x : Item) :
    g.items.Sublist (g.insertUnder parent x).items := by
  induction g with
  | nil => exact List.Sublist.refl _
  | cons a below after ihb iha =>
    refine List.Sublist.cons_cons a (List.Sublist.append ?_ iha)
    split
    · rw [items_snoc]
      exact ihb.trans (List.sublist_append_left ..)
    · exact ihb

theorem size_insertUnder {g : Grove Item} {parent : NodeId} (hn : g.ids.Nodup)
    (h : parent ∈ g.ids) (x : Item) : (g.insertUnder parent x).size = g.size + 1 := by
  simpa using (items_insertUnder_perm hn h x).length_eq

@[simp] theorem roots_insertUnder (g : Grove Item) (parent : NodeId) (x : Item) :
    (g.insertUnder parent x).roots = g.roots := by
  induction g with
  | nil => rfl
  | cons a below after _ iha => simp [insertUnder, roots, iha]

@[simp] theorem childrenOf_snoc (g : Grove Item) (x : Item) (id : NodeId) :
    (g.snoc x).childrenOf id = g.childrenOf id := by
  induction g with
  | nil => simp [snoc, childrenOf, roots]
  | cons a below after _ iha => simp [snoc, childrenOf, iha]

/-- An insertion makes one list of children longer and leaves all others as they are. -/
theorem childrenOf_insertUnder {g : Grove Item} {parent : NodeId} (hn : g.ids.Nodup)
    (h : parent ∈ g.ids) (x : Item) (id : NodeId) :
    (g.insertUnder parent x).childrenOf id =
      g.childrenOf id ++ if parent = id then [x] else [] := by
  induction g with
  | nil => cases h
  | cons a below after ihb iha =>
    obtain ⟨-, -, hnb, hna, -⟩ := nodup_ids_cons.mp hn
    rcases mem_ids_cons_cases hn h with ⟨rfl, hb, ha⟩ | ⟨h, hne, ha⟩ | ⟨h, hne, hb⟩
    · simp only [insertUnder, insertUnder_of_notMem hb, insertUnder_of_notMem ha, if_true,
        childrenOf, roots_snoc, childrenOf_snoc]
      split
      · next he =>
        rw [← he, childrenOf_of_notMem hb, childrenOf_of_notMem ha]
        simp
      · simp
    · have hswap : (if parent = id then [x] else []) ++ after.childrenOf id =
          after.childrenOf id ++ if parent = id then [x] else [] := by
        split
        · next he => simp [childrenOf_of_notMem (he ▸ ha)]
        · simp
      simp only [insertUnder, insertUnder_of_notMem ha, if_neg hne, childrenOf, roots_insertUnder,
        ihb hnb h, List.append_assoc, hswap]
    · simp only [insertUnder, insertUnder_of_notMem hb, if_neg hne, childrenOf, iha hna h,
        List.append_assoc]

/-! ## What a removal changes -/

theorem items_remove_sublist (g : Grove Item) (id : NodeId) :
    (g.remove id).items.Sublist g.items := by
  induction g with
  | nil => exact List.Sublist.refl _
  | cons a below after ihb iha =>
    simp only [remove]
    split
    · exact (iha.trans (List.sublist_append_right ..)).cons a
    · exact (ihb.append iha).cons_cons a

theorem size_remove {g : Grove Item} {id : NodeId} {t : Tree Item} (hn : g.ids.Nodup)
    (h : g.subtree? id = some t) : (g.remove id).size + (t.below.size + 1) = g.size := by
  induction g with
  | nil => cases h
  | cons a below after ihb iha =>
    obtain ⟨hab, haa, hnb, hna, hdis⟩ := nodup_ids_cons.mp hn
    by_cases ha : a.id = id
    · simp only [subtree?, ha, if_true, Option.some.injEq] at h
      subst h
      simp only [remove, ha, if_true, remove_of_notMem (ha ▸ haa), size]
      omega
    · simp only [subtree?, ha, if_false, Option.or_eq_some_iff] at h
      rcases h with h | ⟨hb, h⟩
      · have hid := id_mem_of_subtree? h
        have hsize := ihb hnb h
        simp only [remove, ha, if_false, remove_of_notMem (hdis _ hid), size]
        omega
      · have hsize := iha hna h
        simp only [remove, ha, if_false, remove_of_notMem (subtree?_eq_none_iff.mp hb), size]
        omega

end Grove

end FlatTree
