import FlatTree.External
import FlatTree.Proofs.Changes

/-!
# Placing external nodes

Nodes of a forest are placed one after the other, each as the last child of a node that is there
already. What that makes of an outline: one list of children grows for each placement, the
identities are given out in order, and all that was there before stays where it was.
-/

namespace FlatTree

/-- A node of a forest with its position, the node it went under, and the identity it got. -/
structure Placement where
  entry : ExternalNode × Nat
  parent : NodeId
  id : NodeId

def Placement.item (e : Placement) : Item :=
  ⟨e.id, e.entry.1.attributes⟩

/-- What placements make of an outline. -/
structure Grown (before : Outline) (log : List Placement) (after : Outline) : Prop where
  nextId : after.nextId = before.nextId + log.length
  ids : log.map (·.id) = (List.range log.length).map fun k => ⟨before.nextId + k⟩
  items : after.grove.items.Perm (before.grove.items ++ log.map Placement.item)
  order : before.grove.items.Sublist after.grove.items
  root : after.tree.map (·.root) = before.tree.map (·.root)
  children : ∀ m, after.grove.childrenOf m =
    before.grove.childrenOf m ++ (log.filter (·.parent = m)).map Placement.item
  kept : ∀ r ∈ before.rows, ∃ r' ∈ after.rows,
    r'.item = r.item ∧ r'.interval.depth = r.interval.depth

/-- A node that is there stays at its depth when another is placed. -/
theorem Outline.exists_row_place {o : Outline} {parent : NodeId} (hn : o.ids.Nodup)
    (h : parent ∈ o.ids) (attributes : Attributes) {r : Row} (hr : r ∈ o.rows) :
    ∃ r' ∈ (o.place attributes parent).rows,
      r'.item = r.item ∧ r'.interval.depth = r.interval.depth := by
  rw [← map_id_rows] at h
  obtain ⟨p, hp, rfl⟩ := List.mem_map.mp h
  let s := Shift.opening p.interval.right
  have hperm := Grove.tour_insertUnder_perm hn (mem_rows.mp hp) (o.fresh attributes)
  have hmoved : (r.item, s.apply r.interval) ∈ ((o.place attributes p.id).grove).tour 0 1 := by
    rw [grove_place]
    refine hperm.symm.subset (List.mem_cons_of_mem _ ?_)
    exact List.mem_map_of_mem (f := s.label) (mem_rows.mp hr)
  exact ⟨r.item.row (s.apply r.interval), mem_rows.mpr hmoved, rfl, rfl⟩

namespace Grown

variable {before after : Outline} {log : List Placement}

theorem refl (o : Outline) : Grown o [] o where
  nextId := rfl
  ids := rfl
  items := by simp
  order := List.Sublist.refl _
  root := rfl
  children := by simp
  kept := fun r hr => ⟨r, hr, rfl, rfl⟩

theorem mem_ids_iff (h : Grown before log after) {id : NodeId} :
    id ∈ after.ids ↔ id ∈ before.ids ∨ ∃ e ∈ log, e.id = id := by
  have hperm : after.ids.Perm (before.ids ++ log.map (·.id)) := by
    have hids := h.items.map (·.id)
    rw [List.map_append, List.map_map] at hids
    exact hids
  rw [hperm.mem_iff, List.mem_append, List.mem_map]

/-- One more placement. -/
theorem place (h : Grown before log after) (hn : after.ids.Nodup) {parent : NodeId}
    (hparent : parent ∈ after.ids) (entry : ExternalNode × Nat) :
    Grown before (log ++ [⟨entry, parent, ⟨after.nextId⟩⟩])
      (after.place entry.1.attributes parent) where
  nextId := by
    rw [List.length_append, ← Nat.add_assoc, ← h.nextId]
    rfl
  ids := by
    simp only [List.map_append, h.ids, List.length_append, List.length_singleton,
      List.range_succ, List.map_cons, List.map_nil, h.nextId]
  items := by
    have hperm := Grove.items_insertUnder_perm hn hparent (after.fresh entry.1.attributes)
    rw [Outline.grove_place, List.map_append, ← List.append_assoc]
    exact hperm.trans ((List.perm_append_singleton _ _).symm.trans (h.items.append_right _))
  order := by
    rw [Outline.grove_place]
    exact h.order.trans (Grove.items_sublist_insertUnder ..)
  root := by
    rw [← h.root, Outline.place, Option.map_map]
    rfl
  children := by
    intro m
    rw [Outline.grove_place, Grove.childrenOf_insertUnder hn hparent, h.children,
      List.filter_append, List.map_append, List.append_assoc]
    by_cases hm : parent = m
    · simp [hm, Placement.item, Outline.fresh]
    · simp [hm]
  kept := by
    intro r hr
    obtain ⟨r', hr', hitem', hdepth'⟩ := h.kept r hr
    obtain ⟨r'', hr'', hitem'', hdepth''⟩ :=
      Outline.exists_row_place hn hparent entry.1.attributes hr'
    exact ⟨r'', hr'', hitem''.trans hitem', hdepth''.trans hdepth'⟩

end Grown

end FlatTree
