import FlatTree.Proofs.Queries
import FlatTree.Proofs.Steps
import FlatTree.Report

/-!
# What the walks come to

Both walks of a report go from a row to its children, as the table lists them, and from there on.
Children begin further right than their parent, so on every table there is a grove that unfolds
below a row, and the walks print it and list it. In a table that passes the check it is what stands
below the node in the tree, but for the order of siblings, and in the order of the tree if siblings
come by their left bounds.
-/

namespace FlatTree

/-- A node as an external one, which may refer to a parent. -/
def Item.external (parent : Option NodeId) (x : Item) : ExternalNode :=
  ⟨some x.id.val, parent.map (·.val), x.attributes, none, none⟩

/-! ## Groves as lists of trees -/

namespace Grove

variable {α β : Type}

def map (f : α → β) : Grove α → Grove β
  | nil => nil
  | cons a below after => cons (f a) (below.map f) (after.map f)

def ofTrees : List (Tree α) → Grove α
  | [] => nil
  | t :: ts => cons t.root t.below (ofTrees ts)

def trees : Grove α → List (Tree α)
  | nil => []
  | cons a below after => ⟨a, below⟩ :: after.trees

@[simp] theorem items_map (f : α → β) (g : Grove α) : (g.map f).items = g.items.map f := by
  induction g with
  | nil => rfl
  | cons a below after ihb iha => simp [map, items, ihb, iha]

@[simp] theorem ofTrees_trees (g : Grove α) : ofTrees g.trees = g := by
  induction g with
  | nil => rfl
  | cons a below after _ iha => rw [trees, ofTrees, iha]

theorem map_root_trees (g : Grove α) : g.trees.map Tree.root = g.roots := by
  induction g with
  | nil => rfl
  | cons a below after _ iha => rw [trees, List.map_cons, iha, roots]

theorem items_ofTrees (ts : List (Tree α)) :
    (ofTrees ts).items = ts.flatMap fun t => t.root :: t.below.items := by
  induction ts with
  | nil => rfl
  | cons t ts ih => rw [ofTrees, items, ih, List.flatMap_cons, List.cons_append]

theorem items_eq_flatMap (g : Grove α) :
    g.items = g.trees.flatMap fun t => t.root :: t.below.items := by
  rw [← items_ofTrees, ofTrees_trees]

theorem map_ofTrees (f : α → β) (ts : List (Tree α)) :
    (ofTrees ts).map f = ofTrees (ts.map fun t => ⟨f t.root, t.below.map f⟩) := by
  induction ts with
  | nil => rfl
  | cons t ts ih => rw [ofTrees, map, ih, List.map_cons, ofTrees]

variable {g : Grove Item} {s t : Tree Item}

theorem subtree?_of_mem_trees (hn : g.ids.Nodup) (h : s ∈ g.trees) :
    g.subtree? s.root.id = some s := by
  induction g with
  | nil => cases h
  | cons a below after _ iha =>
    rcases List.mem_cons.mp h with rfl | h
    · rw [subtree?, if_pos rfl]
    · exact subtree?_cons_of_after hn (iha (nodup_ids_cons.mp hn).2.2.2.1 h)

/-- The trees right below a node are those that stand there in the whole grove. -/
theorem subtree?_of_mem_trees_below {id : NodeId} (hn : g.ids.Nodup) (ht : g.subtree? id = some t)
    (h : s ∈ t.below.trees) : g.subtree? s.root.id = some s := by
  induction g with
  | nil => cases ht
  | cons a below after ihb iha =>
    obtain ⟨-, -, hnb, hna, -⟩ := nodup_ids_cons.mp hn
    by_cases ha : a.id = id
    · rw [subtree?, if_pos ha] at ht
      cases ht
      exact subtree?_cons_of_below hn (subtree?_of_mem_trees hnb h)
    · rw [subtree?, if_neg ha, Option.or_eq_some_iff] at ht
      rcases ht with ht | ⟨-, ht⟩
      · exact subtree?_cons_of_below hn (ihb hnb ht)
      · exact subtree?_cons_of_after hn (iha hna ht)

/-- The tree that stands where a label does. -/
def treeAt (g : Grove Item) (x : Item) : Tree Item :=
  (g.subtree? x.id).getD ⟨x, nil⟩

theorem treeAt_of_subtree? {x : Item} (h : g.subtree? x.id = some t) : g.treeAt x = t := by
  rw [treeAt, h, Option.getD_some]

/-- The trees right below a node can be looked up by their roots. -/
theorem map_treeAt_roots {id : NodeId} (hn : g.ids.Nodup) (ht : g.subtree? id = some t) :
    (t.below.trees.map Tree.root).map g.treeAt = t.below.trees := by
  rw [List.map_map, List.map_congr_left, List.map_id]
  exact fun s hs => treeAt_of_subtree? (subtree?_of_mem_trees_below hn ht hs)

/-! ## Groves as forests -/

/-- A grove as external nodes: parents first, and each refers to its parent. -/
def externals (parent : NodeId) : Grove Item → Forest
  | nil => []
  | cons a below after => a.external (some parent) ::
    (below.externals a.id ++ after.externals parent)

/-- What an external node has from its node and not from its parent. -/
theorem map_externals {β : Type} {f : ExternalNode → β}
    (hf : ∀ x q, f (Item.external q x) = f (x.external none)) (g : Grove Item) (parent : NodeId) :
    (g.externals parent).map f = g.items.map fun x => f (x.external none) := by
  induction g generalizing parent with
  | nil => rfl
  | cons a below after ihb iha => simp [externals, items, ihb, iha, hf a (some parent)]

theorem exists_of_mem_externals {parent : NodeId} {e : ExternalNode} (h : e ∈ g.externals parent) :
    ∃ x ∈ g.items, ∃ q, (q = parent ∨ q ∈ g.ids) ∧ e = x.external (some q) := by
  induction g generalizing parent with
  | nil => cases h
  | cons a below after ihb iha =>
    rcases List.mem_cons.mp h with rfl | h
    · exact ⟨a, List.mem_cons_self, parent, .inl rfl, rfl⟩
    · rcases List.mem_append.mp h with h | h
      · obtain ⟨x, hx, q, hq, rfl⟩ := ihb h
        refine ⟨x, by simp [items, hx], q, .inr ?_, rfl⟩
        rcases hq with rfl | hq <;> simp [*]
      · obtain ⟨x, hx, q, hq, rfl⟩ := iha h
        exact ⟨x, by simp [items, hx], q, hq.imp_right fun hq => by simp [hq], rfl⟩

theorem externals_ofTrees (parent : NodeId) (ts : List (Tree Item)) :
    (ofTrees ts).externals parent =
      ts.flatMap fun t => t.root.external (some parent) :: t.below.externals t.root.id := by
  induction ts with
  | nil => rfl
  | cons t ts ih => rw [ofTrees, externals, ih, List.flatMap_cons, List.cons_append]

end Grove

namespace Tree

/-- A tree as external nodes: the root, which refers to nobody, and all that is below it. -/
def exported (t : Tree Item) : Forest :=
  t.root.external none :: t.below.externals t.root.id

variable {t : Tree Item}

theorem map_exported {β : Type} {f : ExternalNode → β}
    (hf : ∀ x q, f (Item.external q x) = f (x.external none)) (t : Tree Item) :
    t.exported.map f = t.grove.items.map fun x => f (x.external none) := by
  rw [exported, List.map_cons, Grove.map_externals hf]
  simp [grove, Grove.items]

theorem exists_of_mem_exported {e : ExternalNode} (h : e ∈ t.exported) :
    ∃ x ∈ t.grove.items, ∃ parent : Option NodeId,
      (∀ q ∈ parent, q ∈ t.grove.ids) ∧ e = x.external parent := by
  rcases List.mem_cons.mp h with rfl | h
  · exact ⟨t.root, List.mem_cons_self, none, by simp, rfl⟩
  · obtain ⟨x, hx, q, hq, rfl⟩ := Grove.exists_of_mem_externals h
    refine ⟨x, by simp [grove, Grove.items, hx], some q, fun q' hq' => ?_, rfl⟩
    cases hq'
    rcases hq with rfl | hq <;> simp [grove, *]

end Tree

/-! ## The walks of a table -/

namespace Table

/-- What unfolds below a row: its children in the order of the keys, and below each what unfolds
there. -/
def under (t : Table) (keys : List SortKey) (r : Row) : Grove Row :=
  Grove.ofTrees ((t.find (Filter.below r.interval true) keys).attach.map fun ⟨c, _⟩ =>
    ⟨c, t.under keys c⟩)
termination_by t.rows.countP fun s => r.interval.left < s.interval.left
decreasing_by
  next hc =>
  obtain ⟨hmem, haccepts⟩ := mem_find.mp hc
  have hlt := left_lt_of_below haccepts
  refine countP_lt_countP (c := c) (fun s hs => ?_) hmem (decide_eq_true hlt) (by simp)
  exact decide_eq_true (Int.lt_trans hlt (of_decide_eq_true hs))

variable {t : Table} {keys : List SortKey} {r : Row}

theorem under_eq (t : Table) (keys : List SortKey) (r : Row) :
    t.under keys r = Grove.ofTrees
      ((t.find (Filter.below r.interval true) keys).map fun c => ⟨c, t.under keys c⟩) := by
  rw [under]
  exact congrArg Grove.ofTrees (List.attach_map_val (f := fun c => Tree.mk c (t.under keys c)))

/-- Whatever holds of a row if it holds of its children holds of every row. -/
theorem under_induction {motive : Row → Prop} (keys : List SortKey)
    (step : ∀ r, (∀ c ∈ t.find (Filter.below r.interval true) keys, motive c) → motive r)
    (r : Row) : motive r := by
  induction r using Table.under.induct t keys with
  | case1 r ih => exact step r ih

theorem childrenOfAnnotated_of_mem (hr : r ∈ t.rows) (keys : List SortKey) (mode : Annotate) :
    t.childrenOfAnnotated keys r.id true mode =
      .ok ((t.find (Filter.below r.interval true) keys).map (t.annotated mode)) :=
  childrenOfAnnotated_eq (childrenOf_of_mem hr keys true) (fun _ hc => (mem_find.mp hc).1) mode

theorem childrenOfAnnotated_of_gone {id : NodeId} (h : t.get? id = none) (mode : Annotate) :
    t.childrenOfAnnotated keys id true mode = .error (.notFound id) := by
  rw [childrenOfAnnotated, childrenOf, require, h]
  rfl

theorem annotateNode_of_mem (hr : r ∈ t.rows) :
    t.annotateNode false r.toNode = .ok (t.annotated .recursive r) := by
  rw [annotateNode_eq, if_pos (by simp [Row.toNode, get?_of_mem hr])]
  rfl

theorem exportBelow_of_mem (keys : List SortKey) (hr : r ∈ t.rows) :
    t.exportBelow keys r.id = .ok (((t.under keys r).map Row.item).externals r.id) := by
  induction r using under_induction (t := t) keys with
  | step r ih =>
  rw [exportBelow]
  split
  · next e h => cases h.symm.trans (childrenOfAnnotated_of_mem hr keys .none)
  · next nodes h =>
    cases h.symm.trans (childrenOfAnnotated_of_mem hr keys .none)
    rw [mapM_attach_eq_ok (g := fun n => n.toRow.item.external (some r.id) ::
      ((t.under keys n.toRow).map Row.item).externals n.id)]
    · rw [under_eq, Grove.map_ofTrees, Grove.externals_ofTrees]
      simp only [List.flatMap_def, List.map_map]
      rfl
    · intro n hn
      obtain ⟨c, hc, rfl⟩ := List.mem_map.mp hn
      have hrest : t.exportBelow keys (t.annotated .none c).id =
          .ok (((t.under keys c).map Row.item).externals c.id) := ih c hc (mem_find.mp hc).1
      dsimp only
      rw [hrest]
      rfl

theorem lines_of_mem (keys : List SortKey) (hr : r ∈ t.rows) {n : Node} (hn : n.id = r.id) :
    t.lines keys n =
      .ok (line n :: (t.under keys r).items.map fun c => line (t.annotated .recursive c)) := by
  induction r using under_induction (t := t) keys generalizing n with
  | step r ih =>
  have hchildren := childrenOfAnnotated_of_mem hr keys .recursive
  rw [← hn] at hchildren
  rw [lines]
  split
  · next e h => cases h.symm.trans hchildren
  · next nodes h =>
    cases h.symm.trans hchildren
    rw [mapM_attach_eq_ok (g := fun n => line n ::
      (t.under keys n.toRow).items.map fun c => line (t.annotated .recursive c))]
    · rw [under_eq, Grove.items_ofTrees]
      simp only [List.flatMap_def, List.map_map, List.map_flatten]
      rfl
    · intro n hn
      obtain ⟨c, hc, rfl⟩ := List.mem_map.mp hn
      exact ih c hc (mem_find.mp hc).1 rfl

/-! ## Walks of a tree -/

variable {o : Outline} {below : Grove Item}

/-- The children that a table lists for a node are those of the tree. -/
theorem map_children_perm (keys : List SortKey) (h : t.rows.Perm o.rows) (hr : r ∈ t.rows)
    (hsub : o.grove.subtree? r.id = some ⟨r.item, below⟩) :
    ((t.find (Filter.below r.interval true) keys).map Row.item).Perm
      (below.trees.map Tree.root) := by
  obtain ⟨rows, hrows, -, hperm⟩ := lists_childrenOf h hr hsub keys true
  cases hrows.symm.trans (childrenOf_of_mem hr keys true)
  rwa [if_pos rfl, Grove.childrenOf_of_subtree? (nodup_of_perm h) hsub,
    ← Grove.map_root_trees] at hperm

private theorem exists_subtree_of_mem_children (h : t.rows.Perm o.rows) (hr : r ∈ t.rows)
    (hsub : o.grove.subtree? r.id = some ⟨r.item, below⟩) {c : Row}
    (hc : c ∈ t.find (Filter.below r.interval true) keys) :
    ∃ belowChild, o.grove.subtree? c.id = some ⟨c.item, belowChild⟩ := by
  have hmem := (map_children_perm keys h hr hsub).subset (List.mem_map_of_mem hc)
  obtain ⟨s, hs, hroot⟩ := List.mem_map.mp hmem
  have hsubChild := Grove.subtree?_of_mem_trees_below (nodup_of_perm h) hsub hs
  rw [hroot] at hsubChild
  exact ⟨s.below, hroot ▸ hsubChild⟩

/-- The rows that unfold below a node are those of the nodes below it. -/
theorem items_under_perm (keys : List SortKey) (h : t.rows.Perm o.rows) (hr : r ∈ t.rows)
    (hsub : o.grove.subtree? r.id = some ⟨r.item, below⟩) :
    ((t.under keys r).items.map Row.item).Perm below.items := by
  induction r using under_induction (t := t) keys generalizing below with
  | step r ih =>
  have hchildren := map_children_perm keys h hr hsub
  rw [under_eq, Grove.items_ofTrees, List.flatMap_map, List.map_flatMap, Grove.items_eq_flatMap,
    ← Grove.map_treeAt_roots (nodup_of_perm h) hsub, List.flatMap_map]
  -- the trees below the node go by their roots now, so the children can be taken one by one
  refine List.Perm.trans ?_ (hchildren.flatMap_right _)
  rw [List.flatMap_map]
  refine List.Perm.flatMap_left _ fun c hc => ?_
  obtain ⟨belowChild, hsubChild⟩ := exists_subtree_of_mem_children h hr hsub hc
  rw [Grove.treeAt_of_subtree? hsubChild]
  exact (ih c hc (mem_find.mp hc).1 hsubChild).cons c.item

/-- In document order it is the same grove. -/
theorem map_under_default (h : t.rows.Perm o.rows) (hr : r ∈ t.rows)
    (hsub : o.grove.subtree? r.id = some ⟨r.item, below⟩) :
    (t.under Settings.default.defaultOrder r).map Row.item = below := by
  induction r using under_induction (t := t) Settings.default.defaultOrder generalizing below with
  | step r ih =>
  have hchildren := map_childrenOf_default h hr hsub true
  rw [childrenOf_of_mem hr, if_pos rfl, Grove.childrenOf_of_subtree? (nodup_of_perm h) hsub,
    ← Grove.map_root_trees] at hchildren
  rw [under_eq, Grove.map_ofTrees, List.map_map, ← Grove.ofTrees_trees below,
    ← Grove.map_treeAt_roots (nodup_of_perm h) hsub, ← Except.ok.inj hchildren, List.map_map]
  refine congrArg Grove.ofTrees (List.map_congr_left fun c hc => ?_)
  obtain ⟨belowChild, hsubChild⟩ := exists_subtree_of_mem_children h hr hsub hc
  rw [Function.comp_apply, Function.comp_apply, Grove.treeAt_of_subtree? hsubChild,
    ih c hc (mem_find.mp hc).1 hsubChild]

/-! ## The walk from the root -/

variable {tree : Tree Item} {nextId : Nat}

theorem subtree?_rootRow (tree : Tree Item) (nextId : Nat) :
    (Outline.mk (some tree) nextId).grove.subtree? tree.rootRow.id =
      some ⟨tree.rootRow.item, tree.below⟩ :=
  if_pos rfl

theorem mem_rows_of_mem_under {c : Row} (hc : c ∈ (t.under keys r).items) : c ∈ t.rows := by
  induction r using under_induction (t := t) keys with
  | step r ih =>
  rw [under_eq, Grove.items_ofTrees, List.flatMap_map, List.mem_flatMap] at hc
  obtain ⟨child, hchild, hc⟩ := hc
  rcases List.mem_cons.mp hc with rfl | hc
  · exact (mem_find.mp hchild).1
  · exact ih child hchild hc

/-- Stored rows are told apart by their nodes. -/
theorem perm_of_map_item_perm {rows rows' : List Row} (hrows : ∀ r ∈ rows, r ∈ t.rows)
    (hrows' : ∀ r ∈ rows', r ∈ t.rows) (h : (rows.map Row.item).Perm (rows'.map Row.item)) :
    rows.Perm rows' := by
  have hstored : ∀ l : List Row, (∀ r ∈ l, r ∈ t.rows) →
      (l.map Row.item).filterMap (fun x => t.get? x.id) = l := by
    intro l hl
    have hget : ∀ r ∈ l, ((fun x : Item => t.get? x.id) ∘ Row.item) r = some r :=
      fun r hr => get?_of_mem (hl r hr)
    rw [List.filterMap_map, List.filterMap_congr hget, List.filterMap_some]
  rw [← hstored rows hrows, ← hstored rows' hrows']
  exact h.filterMap _

/-- Below the root unfolds the whole table. -/
theorem under_rootRow_perm (keys : List SortKey)
    (h : t.rows.Perm (Outline.mk (some tree) nextId).rows) :
    (tree.rootRow :: (t.under keys tree.rootRow).items).Perm t.rows := by
  have hroot := rootRow_mem h rfl
  refine perm_of_map_item_perm (t := t) ?_ (fun _ hr => hr) ?_
  · exact List.forall_mem_cons.mpr ⟨hroot, fun c hc => mem_rows_of_mem_under hc⟩
  · have hrows := h.map Row.item
    rw [Outline.map_item_rows] at hrows
    refine List.Perm.trans ?_ hrows.symm
    have hitems := items_under_perm keys h hroot (subtree?_rootRow tree nextId)
    simp only [Outline.grove, Tree.grove, Grove.items, List.append_nil, List.map_cons]
    exact hitems.cons tree.root

end Table

end FlatTree
