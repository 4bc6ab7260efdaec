import FlatTree.Proofs.Changes
import FlatTree.Proofs.Kinship
import FlatTree.Proofs.SortOrder
import FlatTree.Settings

/-!
# What queries answer

Three mechanisms answer queries: a scan for what lies inside an interval, a count of it, and a scan
for what lies around. In a table that passes the check they tell of one tree. A node's descendants,
its children, their numbers and the chain of its ancestors are those of the tree, whatever order
the rows are asked for in, and in the order of the tree if none is named.
-/

namespace FlatTree

namespace Table

/-- An answer lists nodes: the rows stored for them, one for each, in whatever order. -/
def Lists (t : Table) (answer : Except TreeError (List Row)) (xs : List Item) : Prop :=
  ∃ rows, answer = .ok rows ∧ (∀ r ∈ rows, r ∈ t.rows) ∧ (rows.map Row.item).Perm xs

/-- A node with the count of children, or of all descendants, that its identity has in the table. -/
def counted (t : Table) (directOnly : Bool) (n : Node) : Node :=
  if directOnly then { n with directChildren := (t.childCount n.id true).toOption }
  else { n with descendants := (t.childCount n.id false).toOption }

/-- A row with the counts that a mode asks for. -/
def annotated (t : Table) (mode : Annotate) (r : Row) : Node where
  toRow := r
  directChildren :=
    if mode = .direct ∨ mode = .both then (t.childCount r.id true).toOption else none
  descendants :=
    if mode = .recursive ∨ mode = .both then (t.childCount r.id false).toOption else none

/-- What the queries answer about a stored node is what a tree says, in which `below` stands below
the node and `above` is the chain of nodes above it, from the top down. -/
structure Answers (t : Table) (g : Grove Item) (p : Row) (below : Grove Item)
    (above : List Item) : Prop where
  subtree : g.subtree? p.id = some ⟨p.item, below⟩
  chain : g.above? p.id = some above
  descendants : ∀ keys, t.Lists (t.childrenOf keys p.id false) below.items
  children : ∀ keys, t.Lists (t.childrenOf keys p.id true) (g.childrenOf p.id)
  inOrder : (t.childrenOf (Settings.default.orderOr []) p.id false).map (·.map Row.item) =
    .ok below.items
  childrenInOrder : (t.childrenOf (Settings.default.orderOr []) p.id true).map (·.map Row.item) =
    .ok (g.childrenOf p.id)
  count : ∀ keys directOnly rows, t.childrenOf keys p.id directOnly = .ok rows →
    t.childCount p.id directOnly = .ok rows.length
  width : ∃ n : Nat, t.childCount p.id false = .ok n ∧ p.interval.descendants = n ∧
    (n = 0 ↔ p.interval.isLeaf = true)
  annotated : ∀ keys directOnly mode rows, t.childrenOf keys p.id directOnly = .ok rows →
    t.childrenOfAnnotated keys p.id directOnly mode = .ok (rows.map (t.annotated mode))
  depth : p.interval.depth = above.length
  levelsUp : ∀ k : Int, k < 0 → k.natAbs ≤ p.interval.depth →
    ∃ r ∈ t.rows, t.parentOf p.id k = .ok (some r) ∧ above.reverse[k.natAbs - 1]? = some r.item
  tooFarUp : ∀ k : Int, k < 0 → p.interval.depth < k.natAbs →
    t.parentOf p.id k = .error (.invalidDepth p.interval.depth k)
  atDepth : ∀ k : Nat, k < p.interval.depth →
    ∃ r ∈ t.rows, t.parentOf p.id k = .ok (some r) ∧ above[k]? = some r.item
  notAbove : ∀ k : Nat, p.interval.depth ≤ k → t.parentOf p.id k = .ok none
  parent : ∀ keys rows, t.childrenOf keys p.id true = .ok rows →
    ∀ id, id ∈ rows.map (·.id) ↔ t.parentOf id (-1) = .ok (some p)

variable {t : Table} {o : Outline} {p : Row}

/-! ## Finding -/

/-- The nodes of a tree that a filter accepts, from the left. -/
theorem map_item_filter (o : Outline) (f : Filter) :
    (o.rows.filter (f.accepts ·.interval)).map Row.item =
      ((o.grove.tour 0 1).filter (f.accepts ·.2)).map Prod.fst := by
  rw [Outline.rows, List.filter_map, List.map_map]
  rfl

private theorem map_item_find_perm (h : t.rows.Perm o.rows) (f : Filter) (keys : List SortKey) :
    ((t.find f keys).map Row.item).Perm
      (((o.grove.tour 0 1).filter (f.accepts ·.2)).map Prod.fst) :=
  map_item_filter o f ▸ (find_perm h f keys).map Row.item

theorem orderBy_default_iff {a b : Row} :
    (SortKey.orderBy (Settings.default.orderOr []) a b).isLE = true ↔
      a.interval.left ≤ b.interval.left := by
  have horder : SortKey.orderBy (Settings.default.orderOr []) a b =
      (compare a.interval.left b.interval.left).then
        (compare a.interval.left b.interval.left) := rfl
  rw [horder, Ordering.isLE_then_iff_or, Std.compare_eq_lt, Std.LawfulEqCmp.compare_eq_iff_eq,
    Std.isLE_compare]
  omega

/-- No two nodes have the same left bound, so the default order leaves no choice. -/
theorem find_default (h : t.rows.Perm o.rows) (f : Filter) :
    t.find f (Settings.default.orderOr []) = o.rows.filter (f.accepts ·.interval) := by
  have hlefts : o.rows.Pairwise fun a b => a.interval.left < b.interval.left :=
    List.pairwise_map.mpr (Grove.lefts_tour o.grove 0 1)
  have hnodup : (o.rows.map (·.interval.left)).Nodup :=
    List.pairwise_map.mpr (hlefts.imp Int.ne_of_lt)
  have hnodup' : ((t.rows.filter (f.accepts ·.interval)).map (·.interval.left)).Nodup :=
    ((h.map _).nodup_iff.mpr hnodup).sublist (List.filter_sublist.map _)
  exact SortKey.eq_sort_of_perm hnodup' (h.symm.filter _)
    ((hlefts.filter _).imp fun hlt => orderBy_default_iff.mpr (Int.le_of_lt hlt))

/-! ## Below a node -/

theorem childrenOf_of_mem (hp : p ∈ t.rows) (keys : List SortKey) (directOnly : Bool) :
    t.childrenOf keys p.id directOnly = .ok (t.find (Filter.below p.interval directOnly) keys) := by
  rw [childrenOf, require_eq_ok_iff.mpr ⟨hp, rfl⟩]
  rfl

theorem childCount_of_mem (hp : p ∈ t.rows) (directOnly : Bool) :
    t.childCount p.id directOnly = .ok (t.count (Filter.below p.interval directOnly)) := by
  rw [childCount, require_eq_ok_iff.mpr ⟨hp, rfl⟩]
  rfl

theorem count_eq_length_find (t : Table) (f : Filter) (keys : List SortKey) :
    t.count f = (t.find f keys).length := by
  rw [find, SortKey.sort, List.length_mergeSort, count, List.countP_eq_length_filter]

/-- Inside the interval of a node stand its descendants, and on the next level its children. -/
theorem map_fst_filter_below (h : t.rows.Perm o.rows) (hp : p ∈ t.rows) {below : Grove Item}
    (hsub : o.grove.subtree? p.id = some ⟨p.item, below⟩) (directOnly : Bool) :
    ((o.grove.tour 0 1).filter ((Filter.below p.interval directOnly).accepts ·.2)).map Prod.fst =
      if directOnly then o.grove.childrenOf p.id else below.items := by
  have hinside := Grove.filter_inside_tour (nodup_of_perm h) (mem_tour_of_perm h hp) hsub
  cases directOnly with
  | false =>
    have hbelow : Filter.below p.interval false = Filter.inside p.interval := rfl
    rw [hbelow, hinside, Grove.map_fst_tour]
    rfl
  | true =>
    have hbelow : Filter.below p.interval true =
        (Filter.inside p.interval).atDepth (p.interval.depth + 1) := rfl
    rw [hbelow, Filter.filter_atDepth rfl, hinside, Grove.filter_depth_tour,
      Grove.childrenOf_of_subtree? (nodup_of_perm h) hsub]
    rfl

theorem lists_childrenOf (h : t.rows.Perm o.rows) (hp : p ∈ t.rows) {below : Grove Item}
    (hsub : o.grove.subtree? p.id = some ⟨p.item, below⟩) (keys : List SortKey)
    (directOnly : Bool) :
    t.Lists (t.childrenOf keys p.id directOnly)
      (if directOnly then o.grove.childrenOf p.id else below.items) := by
  refine ⟨_, childrenOf_of_mem hp keys directOnly, fun r hr => (mem_find.mp hr).1, ?_⟩
  rw [← map_fst_filter_below h hp hsub]
  exact map_item_find_perm h _ keys

/-- The count of a node is that of the tree. -/
theorem childCount_of_perm (h : t.rows.Perm o.rows) (hp : p ∈ t.rows) {below : Grove Item}
    (hsub : o.grove.subtree? p.id = some ⟨p.item, below⟩) (directOnly : Bool) :
    t.childCount p.id directOnly =
      .ok (if directOnly then (o.grove.childrenOf p.id).length else below.size) := by
  obtain ⟨rows, hrows, -, hperm⟩ := lists_childrenOf h hp hsub [] directOnly
  cases hrows.symm.trans (childrenOf_of_mem hp [] directOnly)
  rw [childCount_of_mem hp, count_eq_length_find t _ [], ← List.length_map Row.item,
    hperm.length_eq]
  cases directOnly with
  | true => rfl
  | false => exact congrArg Except.ok (Grove.length_items below)

/-- If no order is named the nodes come in the order of the tree. -/
theorem map_childrenOf_default (h : t.rows.Perm o.rows) (hp : p ∈ t.rows) {below : Grove Item}
    (hsub : o.grove.subtree? p.id = some ⟨p.item, below⟩) (directOnly : Bool) :
    (t.childrenOf (Settings.default.orderOr []) p.id directOnly).map (·.map Row.item) =
      .ok (if directOnly then o.grove.childrenOf p.id else below.items) := by
  rw [childrenOf_of_mem hp, find_default h, Except.map, map_item_filter,
    map_fst_filter_below h hp hsub]

/-! ## Counts -/

private theorem counted_id (t : Table) (directOnly : Bool) (n : Node) :
    (t.counted directOnly n).id = n.id := by
  cases directOnly <;> rfl

theorem annotateNode_eq (t : Table) (directOnly : Bool) (n : Node) :
    t.annotateNode directOnly n =
      if (t.get? n.id).isSome then .ok (t.counted directOnly n) else .error (.notFound n.id) := by
  cases hr : t.get? n.id with
  | none =>
    simp [annotateNode, childCount, require, hr, bind, Except.bind]
  | some r =>
    cases directOnly <;>
      simp [annotateNode, counted, childCount, require, hr, bind, Except.bind, pure, Except.pure,
        Except.toOption]

/-- Counts are attached up to the first node that is gone. -/
theorem annotate_eq (t : Table) (directOnly : Bool) (nodes : List Node) :
    t.annotate directOnly nodes =
      ((nodes.takeWhile fun n => (t.get? n.id).isSome).map (t.counted directOnly) ++
          nodes.dropWhile fun n => (t.get? n.id).isSome,
        match nodes.dropWhile fun n => (t.get? n.id).isSome with
        | [] => .ok ()
        | n :: _ => .error (.notFound n.id)) := by
  induction nodes with
  | nil => rfl
  | cons n nodes ih =>
    rw [annotate, annotateNode_eq]
    by_cases hn : (t.get? n.id).isSome = true
    · simp [hn, ih]
    · simp [hn]

theorem annotateAll_eq {nodes : List Node} (hnodes : ∀ n ∈ nodes, (t.get? n.id).isSome = true)
    (directOnly : Bool) :
    t.annotateAll directOnly nodes = .ok (nodes.map (t.counted directOnly)) := by
  have hgone : nodes.dropWhile (fun n => (t.get? n.id).isSome) = [] :=
    List.dropWhile_eq_nil_iff.mpr hnodes
  have hkept : nodes.takeWhile (fun n => (t.get? n.id).isSome) = nodes :=
    List.takeWhile_eq_self_iff.mpr hnodes
  rw [annotateAll, annotate_eq, hgone, hkept, List.append_nil]
  rfl

theorem childrenOfAnnotated_eq {keys : List SortKey} {id : NodeId} {directOnly : Bool}
    {rows : List Row} (hrows : t.childrenOf keys id directOnly = .ok rows)
    (hmem : ∀ r ∈ rows, r ∈ t.rows) (mode : Annotate) :
    t.childrenOfAnnotated keys id directOnly mode = .ok (rows.map (t.annotated mode)) := by
  have hstored : ∀ n ∈ rows.map Row.toNode, (t.get? n.id).isSome = true := by
    intro n hn
    obtain ⟨r, hr, rfl⟩ := List.mem_map.mp hn
    have hget := get?_of_mem (hmem r hr)
    simp [Row.toNode, hget]
  have hcounted : ∀ n ∈ (rows.map Row.toNode).map (t.counted true),
      (t.get? n.id).isSome = true := by
    intro n hn
    obtain ⟨m, hm, rfl⟩ := List.mem_map.mp hn
    rw [counted_id]
    exact hstored m hm
  simp only [childrenOfAnnotated, hrows, bind, Except.bind, pure, Except.pure]
  cases mode with
  | none => rfl
  | direct =>
    dsimp only
    rw [annotateAll_eq hstored, List.map_map]
    rfl
  | recursive =>
    dsimp only
    rw [annotateAll_eq hstored, List.map_map]
    rfl
  | both =>
    rw [annotateAll_eq hstored]
    dsimp only
    rw [annotateAll_eq hcounted, List.map_map, List.map_map]
    rfl

/-! ## Above a node -/

theorem ancestorDepth?_of_nonneg (d k : Nat) : ancestorDepth? d k = some k := by
  simp [ancestorDepth?, Int.not_lt.mpr (Int.natCast_nonneg k)]

theorem ancestorDepth?_of_le {d : Nat} {k : Int} (hk : k < 0) (h : k.natAbs ≤ d) :
    ancestorDepth? d k = some (d - k.natAbs) := by
  have hnonneg : ¬(d : Int) + k < 0 := by omega
  have htoNat : ((d : Int) + k).toNat = d - k.natAbs := by omega
  simp [ancestorDepth?, hk, hnonneg, htoNat]

theorem ancestorDepth?_of_lt {d : Nat} {k : Int} (hk : k < 0) (h : d < k.natAbs) :
    ancestorDepth? d k = none := by
  have hneg : (d : Int) + k < 0 := by omega
  simp [ancestorDepth?, hk, hneg]

theorem parentOf_of_mem (hp : p ∈ t.rows) (k : Int) :
    t.parentOf p.id k = match ancestorDepth? p.interval.depth k with
      | none => .error (.invalidDepth p.interval.depth k)
      | some d => onlyAncestor p.id d (t.find ((Filter.around p.interval).atDepth d) []) := by
  rw [parentOf, require_eq_ok_iff.mpr ⟨hp, rfl⟩]
  rfl

/-- Around the interval of a node, at one depth, stands the node's ancestor on that level. -/
theorem map_item_find_around (h : t.rows.Perm o.rows) (hp : p ∈ t.rows) {above : List Item}
    (habove : o.grove.above? p.id = some above) (k : Nat) :
    (t.find ((Filter.around p.interval).atDepth k) []).map Row.item = above[k]?.toList := by
  obtain ⟨above', habove', -, hfilter⟩ :=
    Grove.filter_around_tour (nodup_of_perm h) (mem_tour_of_perm h hp)
  obtain rfl : above = above' := Option.some.inj (habove.symm.trans habove')
  have hlevel : ((o.grove.tour 0 1).filter
      (((Filter.around p.interval).atDepth k).accepts ·.2)).map Prod.fst = above[k]?.toList := by
    have hchain := Grove.filter_zipIdx above 0 k
    rw [← hfilter, List.filter_map, List.map_map, Nat.zero_add] at hchain
    rw [Filter.filter_atDepth rfl]
    exact hchain
  have hperm := map_item_find_perm h ((Filter.around p.interval).atDepth k) []
  rw [hlevel] at hperm
  cases hk : above[k]? with
  | none => rwa [hk, Option.toList_none, List.perm_nil] at hperm
  | some x => rwa [hk, Option.toList_some, List.perm_singleton] at hperm

private theorem onlyAncestor_of_some {id : NodeId} {k : Nat} {rows : List Row} {x : Item}
    (h : rows.map Row.item = [x]) :
    ∃ r ∈ rows, onlyAncestor id k rows = .ok (some r) ∧ r.item = x := by
  obtain ⟨r, rfl, hr⟩ := List.map_eq_singleton_iff.mp h
  exact ⟨r, List.mem_singleton_self r, rfl, hr⟩

theorem onlyAncestor_eq_some_iff {id : NodeId} {k : Nat} {rows : List Row}
    (h : rows.length ≤ 1) : onlyAncestor id k rows = .ok (some p) ↔ p ∈ rows := by
  rcases rows with _ | ⟨a, _ | ⟨b, rows⟩⟩
  · simp [onlyAncestor]
  · simp [onlyAncestor, eq_comm]
  · simp at h

theorem length_find_around_le (h : t.rows.Perm o.rows) (hp : p ∈ t.rows) (k : Nat) :
    (t.find ((Filter.around p.interval).atDepth k) []).length ≤ 1 := by
  obtain ⟨above, habove, -⟩ :=
    Grove.filter_around_tour (nodup_of_perm h) (mem_tour_of_perm h hp)
  rw [← List.length_map Row.item, map_item_find_around h hp habove]
  cases above[k]? <;> simp

/-- The two scans tell of one relation: a node is among the children of its parent and no other. -/
theorem mem_children_iff_parentOf (h : t.rows.Perm o.rows) (hp : p ∈ t.rows) (keys : List SortKey)
    (id : NodeId) :
    id ∈ (t.find (Filter.below p.interval true) keys).map (·.id) ↔
      t.parentOf id (-1) = .ok (some p) := by
  cases hget : t.get? id with
  | none =>
    have hnot : id ∉ t.rows.map (·.id) := get?_eq_none_iff.mp hget
    have herror : t.parentOf id (-1) = .error (.notFound id) := by
      rw [parentOf, require, hget]
      rfl
    rw [herror]
    refine iff_of_false (fun hid => hnot ?_) (by simp)
    obtain ⟨r, hr, rfl⟩ := List.mem_map.mp hid
    exact List.mem_map_of_mem (mem_find.mp hr).1
  | some x =>
    obtain ⟨hx, rfl⟩ := get?_eq_some_iff.mp hget
    have hself : x.id ∈ (t.find (Filter.below p.interval true) keys).map (·.id) ↔
        (Filter.below p.interval true).accepts x.interval = true := by
      rw [List.mem_map]
      constructor
      · rintro ⟨r, hr, hid⟩
        obtain ⟨hmem, haccepts⟩ := mem_find.mp hr
        have hrx : r = x := Option.some.inj ((get?_of_mem hmem).symm.trans (hid ▸ hget))
        exact hrx ▸ haccepts
      · exact fun haccepts => ⟨x, mem_find.mpr ⟨hx, haccepts⟩, rfl⟩
    have hbelow : (Filter.below p.interval true).accepts x.interval = true ↔
        (Filter.around x.interval).accepts p.interval = true ∧
          p.interval.depth + 1 = x.interval.depth := by
      rw [← Filter.accepts_inside_eq_around, ← beq_iff_eq (a := p.interval.depth + 1),
        ← Bool.and_eq_true]
      exact Eq.congr_left (Filter.accepts_atDepth rfl _ _)
    rw [hself, hbelow, parentOf_of_mem hx]
    cases hdepth : x.interval.depth with
    | zero => simp [ancestorDepth?]
    | succ k =>
      have hlevel : ancestorDepth? (k + 1) (-1) = some k :=
        ancestorDepth?_of_le (by decide) (by simp)
      rw [hlevel]
      dsimp only
      rw [onlyAncestor_eq_some_iff (length_find_around_le h hx k), mem_find,
        Filter.accepts_atDepth rfl, Bool.and_eq_true, beq_iff_eq]
      constructor
      · rintro ⟨haround, heq⟩
        exact ⟨hp, haround, by omega⟩
      · rintro ⟨-, haround, heq⟩
        exact ⟨haround, by omega⟩

/-! ## The answers -/

private theorem exists_parentOf (h : t.rows.Perm o.rows) (hp : p ∈ t.rows) {above : List Item}
    (habove : o.grove.above? p.id = some above) {k : Int} {d : Nat}
    (hk : ancestorDepth? p.interval.depth k = some d) (hd : d < above.length) :
    ∃ r ∈ t.rows, t.parentOf p.id k = .ok (some r) ∧ above[d]? = some r.item := by
  have hitems := map_item_find_around h hp habove d
  rw [List.getElem?_eq_getElem hd, Option.toList_some] at hitems
  obtain ⟨r, hr, hok, hitem⟩ := onlyAncestor_of_some hitems
  refine ⟨r, (mem_find.mp hr).1, ?_, ?_⟩
  · rw [parentOf_of_mem hp, hk]
    exact hok
  · rw [List.getElem?_eq_getElem hd, hitem]

theorem exists_answers (h : t.rows.Perm o.rows) (hp : p ∈ t.rows) :
    ∃ below above, t.Answers o.grove p below above := by
  have hn := nodup_of_perm h
  have htour := mem_tour_of_perm h hp
  obtain ⟨below, hsub, hwidth⟩ := exists_subtree_of_perm h hp
  obtain ⟨above, habove, hdepth, -⟩ := Grove.filter_around_tour hn htour
  rw [Nat.zero_add] at hdepth
  have hcount : ∀ keys directOnly rows, t.childrenOf keys p.id directOnly = .ok rows →
      t.childCount p.id directOnly = .ok rows.length := by
    intro keys directOnly rows hrows
    obtain rfl := Except.ok.inj ((childrenOf_of_mem hp keys directOnly).symm.trans hrows)
    rw [childCount_of_mem hp, count_eq_length_find t _ keys]
  refine ⟨below, above, {
    subtree := hsub
    chain := habove
    descendants := fun keys => lists_childrenOf h hp hsub keys false
    children := fun keys => lists_childrenOf h hp hsub keys true
    inOrder := map_childrenOf_default h hp hsub false
    childrenInOrder := map_childrenOf_default h hp hsub true
    count := hcount
    width := ?_
    annotated := ?_
    depth := hdepth
    levelsUp := ?_
    tooFarUp := ?_
    atDepth := ?_
    notAbove := ?_
    parent := ?_ }⟩
  · refine ⟨below.size, childCount_of_perm h hp hsub false,
      (Work.descendants_eq_of_width hwidth).2.1, ?_⟩
    rw [Interval.isLeaf, beq_iff_eq]
    omega
  · intro keys directOnly mode rows hrows
    obtain ⟨rows', hrows', hmem, -⟩ := lists_childrenOf h hp hsub keys directOnly
    obtain rfl := Except.ok.inj (hrows'.symm.trans hrows)
    exact childrenOfAnnotated_eq hrows hmem mode
  · intro k hk hle
    have hlt : p.interval.depth - k.natAbs < above.length := by omega
    obtain ⟨r, hr, hok, hitem⟩ := exists_parentOf h hp habove (ancestorDepth?_of_le hk hle) hlt
    have hindex : above.length - 1 - (k.natAbs - 1) = p.interval.depth - k.natAbs := by omega
    refine ⟨r, hr, hok, ?_⟩
    rw [List.getElem?_reverse (by omega), hindex, hitem]
  · intro k hk hlt
    rw [parentOf_of_mem hp, ancestorDepth?_of_lt hk hlt]
  · intro k hlt
    exact exists_parentOf h hp habove (ancestorDepth?_of_nonneg _ k) (hdepth ▸ hlt)
  · intro k hle
    have hitems := map_item_find_around h hp habove k
    rw [List.getElem?_eq_none (hdepth ▸ hle), Option.toList_none, List.map_eq_nil_iff] at hitems
    rw [parentOf_of_mem hp, ancestorDepth?_of_nonneg]
    dsimp only
    rw [hitems, onlyAncestor]
  · intro keys rows hrows id
    obtain rfl := Except.ok.inj ((childrenOf_of_mem hp keys true).symm.trans hrows)
    exact mem_children_iff_parentOf h hp keys id

/-- The rows that pass the check are the numbered nodes of a tree, and the queries about every
stored node answer as the tree says. Counts are attached to any nodes, each by its identity, up to
the first that is gone. -/
theorem queries_tell_of_tree {t : Table} {s : Summary} (h : Numbering.check t.rows = .ok s) :
    ∃ o : Outline, t.rows.Perm o.rows ∧ o.ids.Nodup ∧
      (∀ p ∈ t.rows, ∃ below above, t.Answers o.grove p below above) ∧
      ∀ directOnly nodes, t.annotate directOnly nodes =
        ((nodes.takeWhile fun n => (t.get? n.id).isSome).map (t.counted directOnly) ++
            nodes.dropWhile fun n => (t.get? n.id).isSome,
          match nodes.dropWhile fun n => (t.get? n.id).isSome with
          | [] => .ok ()
          | n :: _ => .error (.notFound n.id)) := by
  obtain ⟨o, ho, -⟩ := exists_outline_of_check h t.nextId
  exact ⟨o, ho, nodup_of_perm ho, fun p hp => exists_answers ho hp, annotate_eq t⟩

/-- A root above two leaves, of which the second was stored first. -/
theorem queries_tell_of_tree_two_leaves :
    let t := (((Table.empty.insert Dict.empty ⟨1, 6, 0⟩).2.insert Dict.empty ⟨4, 5, 1⟩).2.insert
      Dict.empty ⟨2, 3, 1⟩).2
    Numbering.check t.rows = .ok ⟨3, 2, 1⟩ ∧
      ∃ o : Outline, t.rows.Perm o.rows ∧ o.ids.Nodup ∧
        (∀ p ∈ t.rows, ∃ below above, t.Answers o.grove p below above) ∧
        ∀ directOnly nodes, t.annotate directOnly nodes =
          ((nodes.takeWhile fun n => (t.get? n.id).isSome).map (t.counted directOnly) ++
              nodes.dropWhile fun n => (t.get? n.id).isSome,
            match nodes.dropWhile fun n => (t.get? n.id).isSome with
            | [] => .ok ()
            | n :: _ => .error (.notFound n.id)) := by
  intro t
  have hcheck : Numbering.check t.rows = .ok ⟨3, 2, 1⟩ :=
    Numbering.check_of_perm_intervals (t := ⟨(), .cons () .nil (.cons () .nil .nil)⟩)
      (.cons _ (.swap ..))
  exact ⟨hcheck, queries_tell_of_tree hcheck⟩

end Table

end FlatTree
