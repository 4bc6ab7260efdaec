import FlatTree.Proofs.Lifetimes
import FlatTree.Proofs.Strictness
import FlatTree.Proofs.Walks

/-!
# Transplanting a tree

The walk that exports a tree and the traversal that imports a forest go through it in different
orders, and the import gives every node a new identity. Still a tree that is exported and brought in
under a node stands there as it stood, as the last one below the node, if the identities are renamed
as the import noted them. Two groves with the same roots in which every node has the same children
are one grove, and the children of each node are what both walks keep.
-/

namespace FlatTree

namespace Grove

variable {α β : Type}

/-- One more tree at the end. -/
def snocTree : Grove α → Tree α → Grove α
  | nil, t => cons t.root t.below nil
  | cons a below after, t => cons a below (after.snocTree t)

/-- A new last tree below a node. -/
def graft (target : NodeId) (t : Tree Item) : Grove Item → Grove Item
  | nil => nil
  | cons a below after =>
    let below := below.graft target t
    cons a (if a.id = target then below.snocTree t else below) (after.graft target t)

/-- Every node has the children that a table of children lists for it. -/
def Follows (children : NodeId → List Item) : Grove Item → Prop
  | nil => True
  | cons a below after =>
    below.roots = children a.id ∧ below.Follows children ∧ after.Follows children

@[simp] theorem roots_snocTree (g : Grove α) (t : Tree α) :
    (g.snocTree t).roots = g.roots ++ [t.root] := by
  induction g with
  | nil => rfl
  | cons a below after _ iha => simp [snocTree, roots, iha]

@[simp] theorem roots_graft (target : NodeId) (t : Tree Item) (g : Grove Item) :
    (g.graft target t).roots = g.roots := by
  induction g with
  | nil => rfl
  | cons a below after _ iha => simp [graft, roots, iha]

@[simp] theorem roots_map (f : α → β) (g : Grove α) : (g.map f).roots = g.roots.map f := by
  induction g with
  | nil => rfl
  | cons a below after _ iha => simp [map, roots, iha]

variable {g g' : Grove Item} {children : NodeId → List Item} {target : NodeId} {t : Tree Item}

/-- Roots and children make a grove. -/
theorem eq_of_follows (h : g.Follows children) (h' : g'.Follows children)
    (hroots : g.roots = g'.roots) : g = g' := by
  induction g generalizing g' with
  | nil =>
    cases g' with
    | nil => rfl
    | cons a below after => cases hroots
  | cons a below after ihb iha =>
    cases g' with
    | nil => cases hroots
    | cons a' below' after' =>
      obtain ⟨rfl, hafter⟩ := List.cons.inj hroots
      rw [ihb h.2.1 h'.2.1 (h.1.trans h'.1.symm), iha h.2.2 h'.2.2 hafter]

theorem childrenOf_root {a : Item} {below after : Grove Item}
    (hn : (cons a below after).ids.Nodup) :
    (cons a below after).childrenOf a.id = below.roots := by
  obtain ⟨hab, haa, -⟩ := nodup_ids_cons.mp hn
  rw [childrenOf, if_pos rfl, childrenOf_of_notMem hab, childrenOf_of_notMem haa,
    List.append_nil, List.append_nil]

private theorem childrenOf_of_mem_below {a : Item} {below after : Grove Item} {id : NodeId}
    (hn : (cons a below after).ids.Nodup) (h : id ∈ below.ids) :
    (cons a below after).childrenOf id = below.childrenOf id := by
  obtain ⟨hab, -, -, -, hdis⟩ := nodup_ids_cons.mp hn
  have hne : a.id ≠ id := fun he => hab (he ▸ h)
  rw [childrenOf, if_neg hne, childrenOf_of_notMem (hdis id h), List.append_nil, List.nil_append]

private theorem childrenOf_of_mem_after {a : Item} {below after : Grove Item} {id : NodeId}
    (hn : (cons a below after).ids.Nodup) (h : id ∈ after.ids) :
    (cons a below after).childrenOf id = after.childrenOf id := by
  obtain ⟨-, haa, -, -, hdis⟩ := nodup_ids_cons.mp hn
  have hne : a.id ≠ id := fun he => haa (he ▸ h)
  rw [childrenOf, if_neg hne, childrenOf_of_notMem fun hb => hdis id hb h, List.nil_append,
    List.nil_append]

theorem follows_childrenOf (hn : g.ids.Nodup)
    (h : ∀ id ∈ g.ids, children id = g.childrenOf id) : g.Follows children := by
  induction g with
  | nil => trivial
  | cons a below after ihb iha =>
    obtain ⟨-, -, hnb, hna, -⟩ := nodup_ids_cons.mp hn
    refine ⟨?_, ihb hnb fun id hid => ?_, iha hna fun id hid => ?_⟩
    · rw [h a.id (by simp), childrenOf_root hn]
    · rw [h id (by simp [hid]), childrenOf_of_mem_below hn hid]
    · rw [h id (by simp [hid]), childrenOf_of_mem_after hn hid]

theorem Follows.snocTree (h : g.Follows children) (ht : t.grove.Follows children) :
    (g.snocTree t).Follows children := by
  induction g with
  | nil => exact ht
  | cons a below after _ iha => exact ⟨h.1, h.2.1, iha h.2.2⟩

/-- What a graft does to the children: the node it goes under has one more. -/
theorem follows_graft (hn : g.ids.Nodup)
    (h : ∀ id ∈ g.ids, children id = g.childrenOf id ++ if id = target then [t.root] else [])
    (ht : t.grove.Follows children) : (g.graft target t).Follows children := by
  induction g with
  | nil => trivial
  | cons a below after ihb iha =>
    obtain ⟨-, -, hnb, hna, -⟩ := nodup_ids_cons.mp hn
    have hbelow := ihb hnb fun id hid => by
      rw [h id (by simp [hid]), childrenOf_of_mem_below hn hid]
    have hafter := iha hna fun id hid => by
      rw [h id (by simp [hid]), childrenOf_of_mem_after hn hid]
    have hroots := h a.id (by simp)
    rw [childrenOf_root hn] at hroots
    by_cases ha : a.id = target
    · simp only [graft, if_pos ha] at hroots ⊢
      exact ⟨by rw [roots_snocTree, roots_graft, hroots], hbelow.snocTree ht, hafter⟩
    · simp only [graft, if_neg ha, List.append_nil] at hroots ⊢
      exact ⟨by rw [roots_graft, hroots], hbelow, hafter⟩

theorem Follows.map {f : Item → Item} {children' : NodeId → List Item} (h : g.Follows children)
    (hf : ∀ x ∈ g.items, children' (f x).id = (children x.id).map f) :
    (g.map f).Follows children' := by
  induction g with
  | nil => trivial
  | cons a below after ihb iha =>
    refine ⟨?_, ihb h.2.1 fun x hx => hf x ?_, iha h.2.2 fun x hx => hf x ?_⟩
    · rw [roots_map, h.1, hf a (by simp [items])]
    · simp [items, hx]
    · simp [items, hx]

/-! ## The exported forest -/

/-- Those that refer to a node are its children. -/
theorem filter_externals {parent : NodeId} (hn : g.ids.Nodup) (hparent : parent ∉ g.ids)
    (q : NodeId) :
    (g.externals parent).filter (·.parent = some q.val) =
      ((if parent = q then g.roots else []) ++ g.childrenOf q).map (Item.external (some q)) := by
  induction g generalizing parent with
  | nil => simp [externals, roots, childrenOf]
  | cons a below after ihb iha =>
    obtain ⟨hab, -, hnb, hna, -⟩ := nodup_ids_cons.mp hn
    have hparents : (a.external (some parent)).parent = some q.val ↔ parent = q := by
      obtain ⟨i⟩ := parent
      obtain ⟨j⟩ := q
      simp [Item.external]
    simp only [ids_cons, List.mem_cons, List.mem_append, not_or] at hparent
    rw [externals, List.filter_cons, List.filter_append, ihb hnb hab, iha hna hparent.2.2]
    by_cases hq : parent = q
    · subst hq
      rw [if_pos (decide_eq_true (hparents.mpr rfl))]
      simp [roots, childrenOf, childrenOf_of_notMem hparent.2.1, Ne.symm hparent.1]
    · rw [if_neg fun h => hq (hparents.mp (of_decide_eq_true h))]
      simp [childrenOf, hq]

end Grove

namespace Tree

variable {α β : Type}

def map (f : α → β) (t : Tree α) : Tree β :=
  ⟨f t.root, t.below.map f⟩

variable {t : Tree Item}

private theorem length_exported (t : Tree Item) : t.exported.length = t.grove.size := by
  have hids := congrArg List.length (map_exported (f := (·.id)) (fun _ _ => rfl) t)
  rwa [List.length_map, List.length_map, Grove.length_items] at hids

theorem filterMap_id_exported (t : Tree Item) :
    t.exported.filterMap (·.id) = t.grove.ids.map (·.val) := by
  have hfilter := List.filterMap_map (l := t.exported) (f := (·.id)) (g := id)
  rw [map_exported (f := (·.id)) fun _ _ => rfl, List.filterMap_map] at hfilter
  refine hfilter.symm.trans ((congrFun List.filterMap_eq_map _).trans ?_)
  rw [Grove.ids, List.map_map]
  rfl

theorem nodup_ids_exported (hn : t.grove.ids.Nodup) :
    (t.exported.filterMap (·.id)).Nodup := by
  rw [filterMap_id_exported]
  exact hn.map fun i j hij => by cases i; cases j; exact congrArg NodeId.mk hij

private theorem filter_exported (hn : t.grove.ids.Nodup) (q : NodeId) :
    t.exported.filter (·.parent = some q.val) =
      (t.grove.childrenOf q).map (Item.external (some q)) := by
  obtain ⟨hroot, -, hbelow, -⟩ := Grove.nodup_ids_cons.mp hn
  have htop : ¬(t.root.external none).parent = some q.val := nofun
  rw [exported, List.filter_cons, Grove.filter_externals hbelow hroot, if_neg (by simpa using htop)]
  simp [grove, Grove.childrenOf]

end Tree

namespace Import

variable {sentinel : Option Nat} {x : Item} {q : NodeId}

theorem isTop_external_none (sentinel : Option Nat) (x : Item) :
    isTop sentinel (x.external none) = true :=
  rfl

theorem isTop_external_some (h : sentinel ≠ some q.val) (x : Item) :
    isTop sentinel (x.external (some q)) = false := by
  simp [isTop, Item.external, Ne.symm h]

theorem home?_external_none (sentinel : Option Nat) (target : NodeId) (idMap : Dict Nat NodeId)
    (x : Item) : home? sentinel target idMap (x.external none) = some target :=
  rfl

private theorem home?_external_some (h : sentinel ≠ some q.val) (target : NodeId)
    (idMap : Dict Nat NodeId) (x : Item) : home? sentinel target idMap (x.external (some q)) =
      idMap.get? q.val := by
  rw [home?, isTop_external_some h x]
  rfl

/-- An import comes to all of a grove if it comes to what the roots refer to. -/
theorem reached_externals {forest : Forest} {g : Grove Item} {parent : NodeId} {j : Nat}
    {m : ExternalNode} (hsentinel : ∀ q, q = parent ∨ q ∈ g.ids → sentinel ≠ some q.val)
    (hforest : ∀ e ∈ g.externals parent, e ∈ forest) (hj : Reached sentinel forest j)
    (hm : forest[j]? = some m) (hid : m.id = some parent.val) :
    ∀ e ∈ g.externals parent, ∀ i, forest[i]? = some e → Reached sentinel forest i := by
  induction g generalizing parent j m with
  | nil => exact fun e he => nomatch he
  | cons a below after ihb iha =>
    have hroot : ∀ i, forest[i]? = some (a.external (some parent)) → Reached sentinel forest i :=
      fun i hi => .under hj hm hid hi (isTop_external_some (hsentinel parent (.inl rfl)) a) rfl
    obtain ⟨k, hk⟩ := List.mem_iff_getElem?.mp (hforest _ List.mem_cons_self)
    intro e he
    rcases List.mem_cons.mp he with rfl | he
    · exact hroot
    rcases List.mem_append.mp he with he | he
    · refine ihb (fun q hq => hsentinel q (.inr ?_)) (fun e he => hforest e ?_) (hroot k hk) hk rfl
        e he
      · rcases hq with rfl | hq <;> simp [*]
      · simp [Grove.externals, he]
    · refine iha (fun q hq => hsentinel q ?_) (fun e he => hforest e ?_) hj hm hid e he
      · exact hq.imp_right fun hq => by simp [hq]
      · simp [Grove.externals, he]

private theorem reached_exported {t : Tree Item}
    (hsentinel : ∀ q ∈ t.grove.ids, sentinel ≠ some q.val) {i : Nat}
    (hi : i < t.exported.length) : Reached sentinel t.exported i := by
  have hroot : Reached sentinel t.exported 0 := .top rfl (isTop_external_none sentinel t.root)
  rcases List.mem_cons.mp (List.getElem_mem hi) with he | he
  · exact .top (List.getElem?_eq_getElem hi) (he ▸ isTop_external_none sentinel t.root)
  · refine reached_externals (fun q hq => hsentinel q ?_) (fun e he => ?_) hroot rfl rfl _ he i
      (List.getElem?_eq_getElem hi)
    · rcases hq with rfl | hq <;> simp [Tree.grove, *]
    · exact List.mem_cons_of_mem _ he

/-! ## What the import noted -/

namespace Grafted

variable {forest : Forest} {target : NodeId} {before after : Outline} {report : ImportReport}
  {place : Nat → NodeId}

theorem nodup_places (h : Grafted sentinel forest target before after report place) :
    ((report.stored forest).map (place ·.2)).Nodup := by
  refine h.fresh.nodup_iff.mpr (List.Nodup.map (fun i j hij => ?_) List.nodup_range)
  have hval := congrArg NodeId.val hij
  dsimp only at hval
  omega

private theorem place_notMem_before (h : Grafted sentinel forest target before after report place)
    (hbefore : ∀ id ∈ before.ids, id.val < before.nextId) {e : ExternalNode × Nat}
    (he : e ∈ report.stored forest) : place e.2 ∉ before.ids := by
  intro hid
  obtain ⟨k, -, hk⟩ := List.mem_map.mp (h.fresh.subset (List.mem_map_of_mem he))
  have hlt := hbefore _ hid
  rw [← hk] at hlt
  dsimp only at hlt
  omega

/-- What is noted is fresh, and noted once. -/
theorem notMem_before_of_get? (h : Grafted sentinel forest target before after report place)
    (hbefore : ∀ id ∈ before.ids, id.val < before.nextId) {q : Nat} {id : NodeId}
    (hq : report.idMap.get? q = some id) : id ∉ before.ids := by
  obtain ⟨e, he, -, rfl⟩ := h.noted q id hq
  exact h.place_notMem_before hbefore he

private theorem eq_of_get? (h : Grafted sentinel forest target before after report place)
    {q q' : Nat} {id : NodeId} (hq : report.idMap.get? q = some id)
    (hq' : report.idMap.get? q' = some id) :
    q = q' := by
  obtain ⟨e, he, heq, hplace⟩ := h.noted q id hq
  obtain ⟨e', he', heq', hplace'⟩ := h.noted q' id hq'
  obtain rfl := List.inj_on_of_nodup_map h.nodup_places he he' (hplace.trans hplace'.symm)
  exact Option.some.inj (heq.symm.trans heq')

private theorem eq_of_mem_zipIdx_of_id (hn : (forest.filterMap (·.id)).Nodup)
    {e e' : ExternalNode × Nat} (he : e ∈ forest.zipIdx)
    (he' : e' ∈ forest.zipIdx) {q : Nat} (hq : e.1.id = some q)
    (hq' : e'.1.id = some q) : e = e' := by
  have hids : forest.zipIdx.filterMap (·.1.id) = forest.filterMap (·.id) := by
    conv_rhs => rw [← List.zipIdx_map_fst 0 forest, List.filterMap_map]
    rfl
  rw [← hids, List.Nodup, List.pairwise_filterMap] at hn
  -- pairs in the order of the list are all there is, but which of two comes first does not matter
  have : Std.Symm fun a b : ExternalNode × Nat =>
      ∀ i, a.1.id = some i → ∀ j, b.1.id = some j → i ≠ j :=
    ⟨fun a b hab i hi j hj => (hab j hj i hi).symm⟩
  by_contra hne
  exact hn.forall he he' hne q hq q hq' rfl

/-- Where no external identity repeats, every node is noted. -/
theorem get?_eq_place (h : Grafted sentinel forest target before after report place)
    (hn : (forest.filterMap (·.id)).Nodup) {e : ExternalNode × Nat}
    (he : e ∈ report.stored forest) {q : Nat} (hq : e.1.id = some q) :
    report.idMap.get? q = some (place e.2) := by
  obtain ⟨id, hid⟩ := (h.idMap q).mpr ⟨e, he, hq⟩
  obtain ⟨e', he', hq', rfl⟩ := h.noted q id hid
  have heq := eq_of_mem_zipIdx_of_id hn (List.mem_of_mem_filter he) (List.mem_of_mem_filter he') hq
    hq'
  rw [hid, heq]

end Grafted

end Import

/-- A node under the identity that was noted for it. -/
def Item.renamed (idMap : Dict Nat NodeId) (x : Item) : Item :=
  ⟨(idMap.get? x.id.val).getD x.id, x.attributes⟩

/-- A tree stands below a node, as the last one there, under the identities that were noted: one for
each of its nodes, and none that was there before. -/
structure Transplanted (tree : Tree Item) (target : NodeId) (before after : Outline)
    (report : ImportReport) : Prop where
  inserted : report.inserted = tree.grove.size
  dropped : report.dropped = []
  idMap : ∀ q, (∃ id, report.idMap.get? q = some id) ↔ ⟨q⟩ ∈ tree.grove.ids
  injective : ∀ q q' id, report.idMap.get? q = some id → report.idMap.get? q' = some id → q = q'
  fresh : ∀ q id, report.idMap.get? q = some id → id ∉ before.ids
  grove : after.grove = before.grove.graft target (tree.map (Item.renamed report.idMap))

theorem Outline.roots_grove (o : Outline) : o.grove.roots = (o.tree.map (·.root)).toList := by
  obtain ⟨_ | t, n⟩ := o <;> rfl

namespace Import

section Exported

variable {sentinel : Option Nat} {tree : Tree Item} {target : NodeId} {before after : Outline}
  {report : ImportReport} {place : Nat → NodeId}
  (h : Grafted sentinel tree.exported target before after report place)
  (hn : tree.grove.ids.Nodup) (hsentinel : ∀ q ∈ tree.grove.ids, sentinel ≠ some q.val)
  (hbefore : ∀ id ∈ before.ids, id.val < before.nextId)

include h hsentinel

private theorem stored_exported :
    report.dropped = [] ∧ report.stored tree.exported = tree.exported.zipIdx := by
  have hdropped : report.dropped = [] := by
    rw [List.eq_nil_iff_forall_not_mem]
    intro i hi
    obtain ⟨hlt, hnot⟩ := (h.dropped i).mp hi
    exact hnot (reached_exported hsentinel hlt)
  refine ⟨hdropped, ?_⟩
  simp [ImportReport.stored, hdropped]

include hn

/-- Copies of exported nodes are these nodes renamed. -/
theorem map_copy_exported {p : ExternalNode → Bool} {xs : List Item} {parent : Option NodeId}
    (hxs : tree.exported.filter p = xs.map (Item.external parent)) :
    ((report.stored tree.exported).filter (p ·.1)).map (copy place) =
      xs.map (Item.renamed report.idMap) := by
  let renamed (n : ExternalNode) : Item :=
    ⟨(report.idMap.get? (n.id.getD 0)).getD ⟨n.id.getD 0⟩, n.attributes⟩
  have hcopy : ∀ e ∈ report.stored tree.exported, copy place e = renamed e.1 := by
    intro e he
    have hmem := List.fst_mem_of_mem_zipIdx (List.mem_of_mem_filter he)
    obtain ⟨x, -, parent', -, hx⟩ := Tree.exists_of_mem_exported hmem
    have hid : e.1.id = some x.id.val := by rw [hx]; rfl
    have hplace := h.get?_eq_place (Tree.nodup_ids_exported hn) he hid
    simp only [copy, renamed, hid, Option.getD_some, hplace]
  calc
    _ = ((report.stored tree.exported).filter (p ·.1)).map (renamed ·.1) :=
      List.map_congr_left fun e he => hcopy e (List.mem_of_mem_filter he)
    _ = (tree.exported.filter p).map renamed := by
      rw [(stored_exported h hsentinel).2, ← List.zipIdx_map_fst 0 tree.exported, List.filter_map,
        List.map_map, List.zipIdx_map_fst]
      rfl
    _ = xs.map (Item.renamed report.idMap) := by
      rw [hxs, List.map_map]
      rfl

include hbefore

private theorem children_of_before {m : NodeId} (hm : m ∈ before.ids) :
    after.grove.childrenOf m = before.grove.childrenOf m ++
      if m = target then [tree.root.renamed report.idMap] else [] := by
  have hrest : ∀ e ∈ tree.below.externals tree.root.id,
      home? sentinel target report.idMap e ≠ some m := by
    intro e he hhome
    obtain ⟨x, -, q, hq, rfl⟩ := Grove.exists_of_mem_externals he
    have hq : q ∈ tree.grove.ids := by rcases hq with rfl | hq <;> simp [Tree.grove, *]
    rw [home?_external_some (hsentinel q hq)] at hhome
    exact h.notMem_before_of_get? hbefore hhome hm
  have hfilter : tree.exported.filter (home? sentinel target report.idMap · = some m) =
      (if m = target then [tree.root] else []).map (Item.external none) := by
    rw [Tree.exported, List.filter_cons,
      List.filter_eq_nil_iff.mpr fun e he => by simpa using hrest e he]
    by_cases hmt : m = target
    · simp [hmt, home?_external_none]
    · simp [hmt, home?_external_none, Ne.symm hmt]
  rw [h.children m, map_copy_exported h hn hsentinel hfilter]
  split <;> rfl

private theorem children_of_noted (htarget : target ∈ before.ids) {q m : NodeId}
    (hm : report.idMap.get? q.val = some m) :
    after.grove.childrenOf m = (tree.grove.childrenOf q).map (Item.renamed report.idMap) := by
  have hfresh := h.notMem_before_of_get? hbefore hm
  have hfilter : tree.exported.filter (home? sentinel target report.idMap · = some m) =
      (tree.grove.childrenOf q).map (Item.external (some q)) := by
    rw [← Tree.filter_exported hn]
    refine List.filter_congr fun e he => ?_
    obtain ⟨x, -, parent, hparent, rfl⟩ := Tree.exists_of_mem_exported he
    cases parent with
    | none =>
      have hne : some target ≠ some m := fun hmt => hfresh (Option.some.inj hmt ▸ htarget)
      rw [home?_external_none, decide_eq_false hne]
      rfl
    | some q' =>
      rw [home?_external_some (hsentinel q' (hparent q' rfl)), decide_eq_decide]
      constructor
      · intro hq'
        rw [h.eq_of_get? hm hq']
        rfl
      · intro hq'
        have hval : q'.val = q.val := Option.some.inj hq'
        rw [hval, hm]
  rw [h.children m, map_copy_exported h hn hsentinel hfilter,
    Grove.childrenOf_of_notMem hfresh, List.nil_append]

theorem Grafted.transplanted (hnodup : before.ids.Nodup) (hafter : after.ids.Nodup)
    (htarget : target ∈ before.ids) :
    Transplanted tree target before after report := by
  obtain ⟨hdropped, hstored⟩ := stored_exported h hsentinel
  have hnoted : ∀ q, (∃ id, report.idMap.get? q = some id) ↔ ⟨q⟩ ∈ tree.grove.ids := by
    intro q
    have hmem : (∃ e ∈ tree.exported.zipIdx, e.1.id = some q) ↔
        q ∈ tree.exported.filterMap (·.id) := by
      conv_rhs => rw [← List.zipIdx_map_fst 0 tree.exported, List.filterMap_map, List.mem_filterMap]
      rfl
    rw [h.idMap, hstored, hmem, Tree.filterMap_id_exported, List.mem_map]
    exact ⟨fun ⟨id, hid, hq⟩ => hq ▸ hid, fun hid => ⟨_, hid, rfl⟩⟩
  have hchildren : (tree.grove.map (Item.renamed report.idMap)).Follows after.grove.childrenOf := by
    refine (Grove.follows_childrenOf hn fun _ _ => rfl).map fun x hx => ?_
    obtain ⟨m, hm⟩ := (hnoted x.id.val).mpr (List.mem_map_of_mem hx)
    rw [Item.renamed, hm]
    exact children_of_noted h hn hsentinel hbefore htarget hm
  refine ⟨?_, hdropped, hnoted, fun q q' id => h.eq_of_get?,
    fun q id => h.notMem_before_of_get? hbefore, ?_⟩
  · have hsize := h.inserted
    rwa [hdropped, List.length_nil, Nat.add_zero, Tree.length_exported] at hsize
  · -- both groves have the children of the imported tree, and the roots are the old ones
    refine Grove.eq_of_follows (Grove.follows_childrenOf hafter fun _ _ => rfl)
      (Grove.follows_graft hnodup (fun m hm => ?_) hchildren) ?_
    · exact children_of_before h hn hsentinel hbefore hm
    · rw [Grove.roots_graft, Outline.roots_grove, Outline.roots_grove, h.root]

end Exported

end Import

/-! ## Export and import -/

namespace Table

variable {t : Table} {tree : Tree Item} {nextId : Nat}

/-- The walk lists the tree. -/
theorem export_eq (h : t.rows.Perm (Outline.mk (some tree) nextId).rows) :
    t.viewById tree.root.id = .ok (tree.root.external none) ∧
      t.exportBelow Settings.default.defaultOrder tree.root.id =
        .ok (tree.below.externals tree.root.id) := by
  have hroot := rootRow_mem h rfl
  have hrequire : t.require tree.root.id = .ok tree.rootRow := require_eq_ok_iff.mpr ⟨hroot, rfl⟩
  constructor
  · rw [viewById, hrequire]
    rfl
  · have hexport := exportBelow_of_mem Settings.default.defaultOrder hroot
    rw [map_under_default h hroot (subtree?_rootRow tree nextId)] at hexport
    exact hexport

end Table

/-- The tree of a table, exported and then imported under a node of a store, stands there as it
stood: all of it arrives, as the last tree below the node. -/
def Store.Receives (s : Store) (settings : ImportSettings) (target : NodeId) (t : Table) : Prop :=
  ∃ root n rest, t.requireRoot = .ok root ∧ t.viewById root.id = .ok n ∧
    t.exportBelow Settings.default.defaultOrder root.id = .ok rest ∧
    ∃ report t' tree before after,
      s.importForest Faults.none settings (n :: rest) target = (.ok report, ⟨t', s.version.next⟩) ∧
      report.inserted = t.rows.length ∧ t.rows.Perm (Outline.mk (some tree) t.nextId).rows ∧
      s.table.Draws before ∧ t'.Draws after ∧ Transplanted tree target before after report

namespace Store

variable {t : Table} {s : Store} {target : NodeId} {settings : ImportSettings}

/-- Even the strict policy finds nothing to object to in an exported tree. -/
theorem acceptable_exported {tree : Tree Item} (hn : tree.grove.ids.Nodup) {sentinel : Option Nat}
    (hsentinel : ∀ q ∈ tree.grove.ids, sentinel ≠ some q.val) (htarget : t.get? target ≠ none) :
    Import.Acceptable sentinel tree.exported t target where
  distinct := Tree.nodup_ids_exported hn
  resolved := by
    intro n h htop
    obtain ⟨x, -, parent, hparent, rfl⟩ := Tree.exists_of_mem_exported h
    cases parent with
    | none => cases htop
    | some q =>
      rw [Tree.filterMap_id_exported]
      exact ⟨q.val, List.mem_map_of_mem (hparent q rfl), rfl⟩
  target := htarget
  anchored i hi := Import.reached_iff_anchored.mp (Import.reached_exported hsentinel hi)

private theorem receives_of_check {sum : Summary} (hcheck : Numbering.check t.rows = .ok sum)
    (hne : t.rows ≠ []) (hs : s.table.Sound) (htarget : s.table.get? target ≠ none)
    (hsentinel : ∀ k, settings.sentinel = some k → t.get? ⟨k⟩ = none) :
    s.Receives settings target t := by
  obtain ⟨⟨_ | tree, nextId⟩, hperm, hnext⟩ := Table.exists_outline_of_check hcheck t.nextId
  · exact absurd (List.perm_nil.mp hperm) hne
  obtain rfl : nextId = t.nextId := hnext
  have hn : tree.grove.ids.Nodup := Table.nodup_of_perm hperm
  have hsentinel' : ∀ q ∈ tree.grove.ids, settings.sentinel ≠ some q.val := by
    intro q hq hk
    have hnone := Table.get?_eq_none_iff.mp (hsentinel q.val hk)
    rw [(hperm.map (·.id)).mem_iff, Outline.map_id_rows] at hnone
    exact hnone hq
  obtain ⟨hview, hexport⟩ := Table.export_eq hperm
  obtain ⟨before, hbefore⟩ := Table.sound_iff_draws.mp hs
  have hmem : target ∈ before.ids := by
    by_contra hnot
    exact htarget (hbefore.get?_eq_none_iff.mpr hnot)
  refine ⟨tree.rootRow, _, _, Table.requireRoot_of_perm hperm rfl, hview, hexport, ?_⟩
  rcases importForest_cases hbefore hmem settings tree.exported with
    ⟨e, -, hrefused, -⟩ | ⟨report, t', after, place, himport, hafter, hgrafted, -⟩
  · exact absurd (acceptable_exported hn hsentinel' htarget) (not_acceptable_of_refused hs hrefused)
  · have h := hgrafted.transplanted hn hsentinel' hbefore.fresh hbefore.nodup hafter.nodup hmem
    refine ⟨report, t', tree, before, after, himport, ?_, hperm, hbefore, hafter, h⟩
    rw [h.inserted, hperm.length_eq, Outline.length_rows]
    rfl

end Store

/-- A tree that is exported, and imported under a node of a sound table, stands below that node as
it stood, as the last one there, under the identities that the import noted; whatever the policy is,
and whatever the sentinel, as long as it stands for no node of the tree. A table that commands lead
to is sound if its rows pass the check, and it has no node 0. -/
theorem trees_survive_transplant :
    (∀ (t : Table) (sum : Summary) (s : Store) (target : NodeId) (settings : ImportSettings),
      Numbering.check t.rows = .ok sum → t.rows ≠ [] → s.table.Sound →
      s.table.get? target ≠ none → (∀ k, settings.sentinel = some k → t.get? ⟨k⟩ = none) →
      s.Receives settings target t) ∧
    ∀ (first second : Settings) (commands : List (Bool × Session.Command)),
      let t := ((Session.start first second).finish commands).store.table
      (∀ sum, Numbering.check t.rows = .ok sum → t.Sound) ∧ t.get? ⟨0⟩ = none := by
  refine ⟨fun t sum s target settings hcheck hne hs htarget hsentinel =>
    Store.receives_of_check hcheck hne hs htarget hsentinel, fun first second commands => ?_⟩
  obtain ⟨logs, h⟩ := Session.exists_history (Session.start first second) commands
  have hissued := h.becomes.issued Table.issued_empty
  exact ⟨fun sum hcheck => ⟨⟨sum, hcheck⟩, fun r hr => (hissued.ids r hr).2⟩,
    hissued.get?_zero⟩

/-- A root above two leaves, brought in under its own second leaf. -/
theorem trees_survive_transplant_two_leaves :
    let t := (((Table.empty.insert Dict.empty ⟨1, 6, 0⟩).2.insert Dict.empty ⟨4, 5, 1⟩).2.insert
      Dict.empty ⟨2, 3, 1⟩).2
    Numbering.check t.rows = .ok ⟨3, 2, 1⟩ ∧ t.rows ≠ [] ∧ t.Sound ∧ t.get? ⟨2⟩ ≠ none ∧
      (∀ k, some 0 = some k → t.get? ⟨k⟩ = none) ∧
      (Store.mk t ⟨3⟩).Receives ⟨some 0, .fail⟩ ⟨2⟩ t := by
  intro t
  have hcheck : Numbering.check t.rows = .ok ⟨3, 2, 1⟩ :=
    Numbering.check_of_perm_intervals (t := ⟨(), .cons () .nil (.cons () .nil .nil)⟩)
      (.cons _ (.swap ..))
  have hne : t.rows ≠ [] := by decide
  have hsound : t.Sound := ⟨⟨_, hcheck⟩, by decide⟩
  have htarget : t.get? ⟨2⟩ ≠ none := by decide
  have hsentinel : ∀ k, some 0 = some k → t.get? ⟨k⟩ = none := by
    intro k hk
    cases hk
    decide
  exact ⟨hcheck, hne, hsound, htarget, hsentinel,
    trees_survive_transplant.1 t _ ⟨t, ⟨3⟩⟩ ⟨2⟩ ⟨some 0, .fail⟩ hcheck hne hsound htarget hsentinel⟩

end FlatTree
