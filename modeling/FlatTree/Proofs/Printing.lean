import FlatTree.Proofs.Digits
import FlatTree.Proofs.Scans
import FlatTree.Proofs.Walks

/-!
# Printed and exported trees

Both walks of a report go through a well numbered table depth first: every stored row comes once,
the rows below a node stand right behind it, and the children of a node come in the order of the
keys. The number in a line tells how many of the lines behind it belong to the node, and an exported
node refers to its parent, which came before. On tables that are numbered in whatever way the walks
still end, since every child begins further right than its parent.
-/

namespace FlatTree

/-- Rows in the order of a walk from the root. Each stored row is there once. Behind a row come the
nodes below it before any other, and its children follow each other in the order of the keys. -/
structure Table.DepthFirst (t : Table) (o : Outline) (keys : List SortKey) (order : List Row) :
    Prop where
  perm : order.Perm t.rows
  below : ∀ before r after, order = before ++ r :: after →
    ∃ below, o.grove.subtree? r.id = some ⟨r.item, below⟩ ∧
      ((after.take below.size).map Row.item).Perm below.items
  siblings : ∀ p ∈ t.rows, ∃ children : List Row, children.Sublist order ∧
    (children.map Row.item).Perm (o.grove.childrenOf p.id) ∧
      children.Pairwise (SortKey.Precedes keys)

/-- The line of a row up to its end: two blanks for each node above it, the row itself, and how many
nodes are below it. -/
def Row.shown (r : Row) (above below : Nat) : String :=
  String.ofList (List.replicate (2 * above) ' ') ++ s!"{r.text} ({below} below)"

/-- A text is the line of a row, by the nodes that are above and below it, and no more than one
line. -/
def Outline.Shows (o : Outline) (r : Row) (text : String) : Prop :=
  ∃ below above, o.grove.subtree? r.id = some ⟨r.item, below⟩ ∧
    o.grove.above? r.id = some above ∧ text = r.shown above.length below.size ++ "\n" ∧
      '\n' ∉ (r.shown above.length below.size).toList

/-- Rows one after the other as external nodes. Each refers to its parent, which is one of the rows
seen so far. -/
inductive Outline.Refers (o : Outline) : List Row → List Row → Forest → Prop
  | nil (seen : List Row) : Refers o seen [] []
  | cons {seen rows : List Row} {forest : Forest} {p r : Row} : p ∈ seen →
      r.item ∈ o.grove.childrenOf p.id → Refers o (seen ++ [r]) rows forest →
      Refers o seen (r :: rows) (r.item.external (some p.id) :: forest)

/-- A walk that is at one node goes on to another. -/
def Table.GoesOn (t : Table) (keys : List SortKey) (mode : Annotate) (parent child : NodeId) :
    Prop :=
  ∃ nodes, t.childrenOfAnnotated keys parent true mode = .ok nodes ∧ ∃ c ∈ nodes, c.id = child

/-- The walks of a table end, whatever its rows: no way down is longer than the table. As long as
one can be counted to every depth in its word, both walks answer from every stored row. From
anywhere else they refuse to begin. -/
structure Table.WalksEnd (t : Table) (keys : List SortKey) : Prop where
  wellFounded : ∀ mode, WellFounded fun child parent => t.GoesOn keys mode parent child
  bounded : ∀ mode id ids, (id :: ids).IsChain (t.GoesOn keys mode) → ids.length ≤ t.size
  words : t.DepthsFit → ∀ r ∈ t.rows,
    Filter.wordBelow r.interval true = Filter.below r.interval true
  lines : t.DepthsFit → ∀ n : Node, (t.get? n.id).isSome = true →
    ∃ lines, t.lines keys n = .ok lines
  exported : t.DepthsFit → ∀ id, (t.get? id).isSome = true →
    ∃ forest, t.exportBelow keys id = .ok forest
  noLines : ∀ n : Node, t.get? n.id = none → t.lines keys n = .error (.notFound n.id)
  notExported : ∀ id, t.get? id = none → t.exportBelow keys id = .error (.notFound id)

/-! ## One line -/

theorem newline_notMem_toDigits {b : Nat} (hb : 1 < b) (hle : b ≤ 16) (n : Nat) :
    '\n' ∉ Nat.toDigits b n := by
  have hdigit : ∀ d < 16, Nat.digitChar d ≠ '\n' := by decide
  induction n using Nat.strongRecOn with
  | ind n ih =>
    rw [Nat.toDigits_eq_if hb]
    split
    · next hlt =>
      rw [List.mem_singleton]
      exact (hdigit n (Nat.lt_of_lt_of_le hlt hle)).symm
    · next hge =>
      have hmod : n % b < b := Nat.mod_lt n (by omega)
      have hrest := ih (n / b) (Nat.div_lt_self (by omega) hb)
      rw [List.mem_append, List.mem_singleton, not_or]
      exact ⟨hrest, (hdigit (n % b) (Nat.lt_of_lt_of_le hmod hle)).symm⟩

theorem newline_notMem_nat (n : Nat) : '\n' ∉ (toString n).toList := by
  change '\n' ∉ n.repr.toList
  rw [Nat.toList_repr]
  exact newline_notMem_toDigits (by decide) (by decide) n

private theorem newline_notMem_int (i : Int) : '\n' ∉ (toString i).toList := by
  rw [toList_toString_int, List.mem_append, not_or]
  refine ⟨?_, newline_notMem_toDigits (by decide) (by decide) _⟩
  cases decide (i < 0) <;> decide

theorem Quoted.newline_notMem_shown (c : Char) : '\n' ∉ shown c := by
  simp only [shown]
  split_ifs with _ _ _ _ hn
  all_goals try decide
  · simp [newline_notMem_toDigits]
  · simpa using Ne.symm hn

theorem Quoted.newline_notMem_quote (s : String) : '\n' ∉ (quote s).toList := by
  simp [quote, newline_notMem_shown]

theorem NodeId.newline_notMem_text (id : NodeId) : '\n' ∉ id.text.toList := by
  change '\n' ∉ ("#" ++ toString id.val).toList
  simp only [String.toList_append, List.mem_append, newline_notMem_nat, or_false]
  decide

theorem Interval.newline_notMem_text (i : Interval) : '\n' ∉ i.text.toList := by
  change '\n' ∉ ("[" ++ toString i.left ++ ", " ++ toString i.right ++ "]@" ++
    toString i.depth).toList
  simp only [String.toList_append, List.mem_append, newline_notMem_nat, newline_notMem_int,
    or_false]
  decide

theorem Row.newline_notMem_text (r : Row) : '\n' ∉ r.text.toList := by
  have hblank : '\n' ∉ " ".toList := by decide
  have hhead : '\n' ∉ (r.id.text ++ " " ++ r.interval.text).toList := by
    simp [NodeId.newline_notMem_text, Interval.newline_notMem_text]
  rw [text]
  split
  · change '\n' ∉ (r.id.text ++ " " ++ r.interval.text ++ " " ++ Quoted.quote _).toList
    rw [String.toList_append, String.toList_append, List.mem_append, List.mem_append, not_or,
      not_or]
    exact ⟨⟨hhead, hblank⟩, Quoted.newline_notMem_quote _⟩
  · exact hhead

theorem Row.newline_notMem_shown (r : Row) (above below : Nat) :
    '\n' ∉ (r.shown above below).toList := by
  change '\n' ∉ (String.ofList (List.replicate (2 * above) ' ') ++
    (r.text ++ " (" ++ toString below ++ " below)")).toList
  simp [newline_notMem_text, newline_notMem_toDigits]

/-! ## The order of a walk -/

/-- What comes behind an element of several lists joined begins with what comes behind it in one of
them. -/
theorem exists_of_flatMap_eq {α β : Type} {f : α → List β} {l : List α} {before after : List β}
    {x : β} (h : l.flatMap f = before ++ x :: after) :
    ∃ c ∈ l, ∃ before' after' rest, f c = before' ++ x :: after' ∧ after = after' ++ rest := by
  induction l generalizing before with
  | nil => simp at h
  | cons c l ih =>
    rw [List.flatMap_cons, List.append_eq_append_iff] at h
    rcases h with ⟨before', -, h⟩ | ⟨behind, hc, h⟩
    · obtain ⟨d, hd, hsplit⟩ := ih h
      exact ⟨d, List.mem_cons_of_mem _ hd, hsplit⟩
    · cases behind with
      | nil =>
        obtain ⟨d, hd, hsplit⟩ := ih (h.symm.trans (List.nil_append _).symm)
        exact ⟨d, List.mem_cons_of_mem _ hd, hsplit⟩
      | cons y behind =>
        obtain ⟨rfl, rfl⟩ := List.cons.inj h
        exact ⟨c, List.mem_cons_self, before, behind, _, hc, rfl⟩

private theorem sublist_flatMap_cons {α : Type} (f : α → List α) (l : List α) :
    l.Sublist (l.flatMap fun c => c :: f c) := by
  induction l with
  | nil => exact .slnil
  | cons c l ih =>
    rw [List.flatMap_cons, List.cons_append]
    exact (ih.trans (List.sublist_append_right ..)).cons_cons c

namespace Outline.Refers

variable {o : Outline}

theorem append {seen rows rows' : List Row} {forest forest' : Forest}
    (h : o.Refers seen rows forest) (h' : o.Refers (seen ++ rows) rows' forest') :
    o.Refers seen (rows ++ rows') (forest ++ forest') := by
  induction h with
  | nil seen => rwa [List.append_nil] at h'
  | cons hp hchild _ ih =>
    refine .cons hp hchild (ih ?_)
    rwa [List.append_assoc]

theorem length_eq {seen rows : List Row} {forest : Forest} (h : o.Refers seen rows forest) :
    forest.length = rows.length := by
  induction h with
  | nil seen => rfl
  | cons _ _ _ ih => rw [List.length_cons, List.length_cons, ih]

theorem flatMap {α : Type} {l : List α} {rows : α → List Row} {forest : α → Forest}
    {seen : List Row}
    (h : ∀ c ∈ l, ∀ seen', seen ⊆ seen' → o.Refers seen' (rows c) (forest c)) :
    o.Refers seen (l.flatMap rows) (l.flatMap forest) := by
  induction l generalizing seen with
  | nil => exact .nil seen
  | cons c l ih =>
    refine (h c List.mem_cons_self seen (List.Subset.refl _)).append (ih fun d hd seen' hseen => ?_)
    exact h d (List.mem_cons_of_mem _ hd) seen' fun r hr => hseen (List.mem_append_left _ hr)

end Outline.Refers

namespace Table

variable {t : Table} {o : Outline} {keys : List SortKey} {p r : Row} {below : Grove Item}

/-- A row and what unfolds below it, depth first. -/
def order (t : Table) (keys : List SortKey) (r : Row) : List Row :=
  r :: (t.under keys r).items

theorem items_under (t : Table) (keys : List SortKey) (r : Row) :
    (t.under keys r).items =
      (t.find (Filter.below r.interval true) keys).flatMap (t.order keys) := by
  rw [under_eq, Grove.items_ofTrees, List.flatMap_map]
  rfl

/-- Behind a row in the order of a walk comes what unfolds below it. -/
theorem exists_of_order_eq {before after : List Row} (h : t.order keys r = before ++ p :: after) :
    ∃ rest, after = (t.under keys p).items ++ rest := by
  induction r using under_induction (t := t) keys generalizing before after with
  | step r ih =>
  cases before with
  | nil =>
    obtain ⟨rfl, rfl⟩ := List.cons.inj h
    exact ⟨[], (List.append_nil _).symm⟩
  | cons a before =>
    have htail := (List.cons.inj h).2
    rw [items_under] at htail
    obtain ⟨c, hc, before', after', rest, hchild, rfl⟩ := exists_of_flatMap_eq htail
    obtain ⟨rest', rfl⟩ := ih c hc hchild
    exact ⟨rest' ++ rest, List.append_assoc ..⟩

/-- A row that begins a stored tree is followed by the nodes below it. -/
theorem map_take_order_perm (h : t.rows.Perm o.rows) (hp : p ∈ t.rows)
    (hsub : o.grove.subtree? p.id = some ⟨p.item, below⟩) {before after : List Row}
    (horder : t.order keys r = before ++ p :: after) :
    ((after.take below.size).map Row.item).Perm below.items := by
  obtain ⟨rest, rfl⟩ := exists_of_order_eq horder
  have hperm := items_under_perm keys h hp hsub
  have hlength : (t.under keys p).items.length = below.size := by
    rw [← List.length_map Row.item, hperm.length_eq, Grove.length_items]
  rwa [List.take_left' hlength]

private theorem children_sublist_order (hp : p ∈ t.order keys r) :
    (t.find (Filter.below p.interval true) keys).Sublist (t.order keys r) := by
  obtain ⟨before, after, horder⟩ := List.append_of_mem hp
  obtain ⟨rest, rfl⟩ := exists_of_order_eq horder
  have hbelow : (t.find (Filter.below p.interval true) keys).Sublist (t.under keys p).items := by
    rw [items_under]
    exact sublist_flatMap_cons (fun c => (t.under keys c).items) _
  rw [horder]
  exact hbelow.trans ((List.sublist_append_left ..).trans
    ((List.sublist_cons_self ..).trans (List.sublist_append_right ..)))

theorem depthFirst_order (h : t.rows.Perm o.rows) (hall : (t.order keys r).Perm t.rows) :
    t.DepthFirst o keys (t.order keys r) where
  perm := hall
  below before p after horder := by
    have hp : p ∈ t.rows := hall.subset (horder ▸ by simp)
    obtain ⟨below, hsub, -⟩ := exists_subtree_of_perm h hp
    exact ⟨below, hsub, map_take_order_perm h hp hsub horder⟩
  siblings p hp := by
    obtain ⟨below, hsub, -⟩ := exists_subtree_of_perm h hp
    refine ⟨_, children_sublist_order (hall.symm.subset hp), ?_, t.pairwise_find _ keys⟩
    rw [Grove.childrenOf_of_subtree? (nodup_of_perm h) hsub, ← Grove.map_root_trees]
    exact map_children_perm keys h hp hsub

/-! ## What the walks say of a row -/

theorem shows_line (h : t.rows.Perm o.rows) (hr : r ∈ t.rows) :
    o.Shows r (line (t.annotated .recursive r)) := by
  obtain ⟨below, hsub, -⟩ := exists_subtree_of_perm h hr
  obtain ⟨above, habove, hdepth, -⟩ :=
    Grove.filter_around_tour (nodup_of_perm h) (mem_tour_of_perm h hr)
  rw [Nat.zero_add] at hdepth
  have hcount : t.childCount r.id false = .ok below.size := childCount_of_perm h hr hsub false
  refine ⟨below, above, hsub, habove, ?_, r.newline_notMem_shown _ _⟩
  simp only [line, annotated, hcount, hdepth, Except.toOption, Row.shown, String.append_assoc]
  rfl

/-- What unfolds below a row is exported in the order of the walk, and refers to what came
before. -/
theorem refers_externals (h : t.rows.Perm o.rows) (hr : r ∈ t.rows) {seen : List Row}
    (hseen : r ∈ seen) :
    o.Refers seen (t.under keys r).items (((t.under keys r).map Row.item).externals r.id) := by
  induction r using under_induction (t := t) keys generalizing seen with
  | step r ih =>
  obtain ⟨below, hsub, -⟩ := exists_subtree_of_perm h hr
  have hchildren := map_children_perm keys h hr hsub
  rw [Grove.map_root_trees, ← Grove.childrenOf_of_subtree? (nodup_of_perm h) hsub] at hchildren
  rw [items_under, under_eq, Grove.map_ofTrees, Grove.externals_ofTrees, List.map_map,
    List.flatMap_map]
  refine Outline.Refers.flatMap fun c hc seen hsub => ?_
  refine .cons (hsub hseen) (hchildren.subset (List.mem_map_of_mem hc)) ?_
  exact ih c hc (mem_find.mp hc).1 (List.mem_append_right _ (List.mem_singleton_self c))

/-! ## The walks end -/

private theorem rightOf_lt_of_goesOn {mode : Annotate} {parent child : NodeId}
    (h : t.GoesOn keys mode parent child) : t.rightOf child < t.rightOf parent := by
  obtain ⟨nodes, hnodes, c, hc, rfl⟩ := h
  exact rightOf_lt hnodes hc

theorem rightOf_le_size (t : Table) (id : NodeId) : t.rightOf id ≤ t.size := by
  rw [rightOf]
  split
  · exact List.countP_le_length
  · exact Nat.zero_le _

/-- Every way down takes at least one row off the rows further right. -/
theorem length_le_rightOf {mode : Annotate} {id : NodeId} {ids : List NodeId}
    (h : (id :: ids).IsChain (t.GoesOn keys mode)) : ids.length ≤ t.rightOf id := by
  induction ids generalizing id with
  | nil => exact Nat.zero_le _
  | cons child ids ih =>
    obtain ⟨hstep, hrest⟩ := List.isChain_cons_cons.mp h
    exact Nat.lt_of_le_of_lt (ih hrest) (rightOf_lt_of_goesOn hstep)

theorem walksEnd (t : Table) (keys : List SortKey) : t.WalksEnd keys where
  wellFounded mode := Subrelation.wf rightOf_lt_of_goesOn (measure t.rightOf).wf
  bounded mode id ids h := (length_le_rightOf h).trans (t.rightOf_le_size id)
  words hfit r hr := Filter.wordBelow_eq_iff.mpr fun _ => hfit r hr
  lines _ n h := by
    obtain ⟨r, hr⟩ := Option.isSome_iff_exists.mp h
    obtain ⟨hmem, hid⟩ := get?_eq_some_iff.mp hr
    exact ⟨_, lines_of_mem keys hmem hid.symm⟩
  exported _ id h := by
    obtain ⟨r, hr⟩ := Option.isSome_iff_exists.mp h
    obtain ⟨hmem, rfl⟩ := get?_eq_some_iff.mp hr
    exact ⟨_, exportBelow_of_mem keys hmem⟩
  noLines n h := by
    rw [lines]
    split
    · next e he =>
      cases he.symm.trans (childrenOfAnnotated_of_gone h .recursive)
      rfl
    · next nodes he => cases he.symm.trans (childrenOfAnnotated_of_gone h .recursive)
  notExported id h := by
    rw [exportBelow]
    split
    · next e he =>
      cases he.symm.trans (childrenOfAnnotated_of_gone h .none)
      rfl
    · next nodes he => cases he.symm.trans (childrenOfAnnotated_of_gone h .none)

/-- A table that passes the check has no root to begin with, or is printed line by line and
exported node by node in one depth-first order of its rows. On every table both walks end. -/
theorem walks_go_depth_first :
    (∀ (t : Table) (s : Summary) (keys : List SortKey), Numbering.check t.rows = .ok s →
      (t.rows = [] ∧ t.requireRoot = .error .rootMissing) ∨
        ∃ (o : Outline) (root : Row) (rest : List Row) (n : Node) (lines : List String)
            (forest : Forest),
          t.rows.Perm o.rows ∧ t.DepthFirst o keys (root :: rest) ∧
          t.requireRoot = .ok root ∧ t.annotateNode false root.toNode = .ok n ∧
          t.lines keys n = .ok lines ∧ List.Forall₂ o.Shows (root :: rest) lines ∧
          t.exportBelow keys root.id = .ok forest ∧ o.Refers [root] rest forest) ∧
    ∀ (t : Table) (keys : List SortKey), t.WalksEnd keys := by
  refine ⟨fun t s keys hcheck => ?_, walksEnd⟩
  obtain ⟨⟨_ | tree, nextId⟩, ho, -⟩ := exists_outline_of_check hcheck 0
  · refine .inl ⟨List.perm_nil.mp ho, ?_⟩
    rw [requireRoot, root?_of_perm ho]
    rfl
  · have hroot := rootRow_mem ho rfl
    have hall : (t.order keys tree.rootRow).Perm t.rows := under_rootRow_perm keys ho
    have hn := annotateNode_of_mem hroot
    have hshown : List.Forall₂ (Outline.mk (some tree) nextId).Shows (t.order keys tree.rootRow)
        ((t.order keys tree.rootRow).map fun r => line (t.annotated .recursive r)) := by
      rw [List.forall₂_map_right_iff, List.forall₂_same]
      exact fun r hr => shows_line ho (hall.subset hr)
    exact .inr ⟨_, tree.rootRow, (t.under keys tree.rootRow).items, _, _, _, ho,
      depthFirst_order ho hall, requireRoot_of_perm ho rfl, hn, lines_of_mem keys hroot rfl, hshown,
      exportBelow_of_mem keys hroot, refers_externals ho hroot (List.mem_singleton_self _)⟩

/-- A root above two leaves, the second of which comes first by the key: three lines, and two nodes
exported. -/
theorem walks_go_depth_first_two_leaves :
    let name (s : String) : Attributes := Dict.ofList [("name", .string s)]
    let t := (((Table.empty.insert (name "top") ⟨1, 6, 0⟩).2.insert (name "a") ⟨2, 3, 1⟩).2.insert
      (name "b") ⟨4, 5, 1⟩).2
    let keys : List SortKey := [⟨.attribute "name", true⟩]
    Numbering.check t.rows = .ok ⟨3, 2, 1⟩ ∧
      ∃ root n lines forest, t.requireRoot = .ok root ∧
        t.annotateNode false root.toNode = .ok n ∧ t.lines keys n = .ok lines ∧
        lines.length = 3 ∧ t.exportBelow keys root.id = .ok forest ∧ forest.length = 2 := by
  intro name t keys
  have hcheck : Numbering.check t.rows = .ok ⟨3, 2, 1⟩ :=
    Numbering.check_of_perm_intervals (t := ⟨(), .cons () .nil (.cons () .nil .nil)⟩) (.refl _)
  rcases walks_go_depth_first.1 t _ keys hcheck with ⟨hrows, -⟩ |
    ⟨o, root, rest, n, lines, forest, -, hdepth, hroot, hn, hlines, hshown, hforest, hrefers⟩
  · cases hrows
  · have hlength : (root :: rest).length = 3 := hdepth.perm.length_eq
    exact ⟨hcheck, root, n, lines, forest, hroot, hn, hlines, hshown.length_eq ▸ hlength, hforest,
      hrefers.length_eq.trans (Nat.succ.inj hlength)⟩

end Table

end FlatTree
