import FlatTree.Proofs.Displacement
import FlatTree.Proofs.Grafting

/-!
# Imports go level by level

An import knows no levels, only a queue. But the nodes under which the entries of the queue belong
stand there in the order in which they were stored, and what is stored next goes behind all of them.
So the identities that are given out ascend with the parents, and within one parent with the
positions in the forest; and as a child is one level below its parent, no level is begun before the
one above it is complete.
-/

namespace FlatTree

/-- Lists in the same ascending order with the same members are equal. -/
theorem eq_of_ascending {α : Type} {f : α → Nat} {l l' : List α}
    (h : l.Pairwise fun a b => f a < f b) (h' : l'.Pairwise fun a b => f a < f b)
    (hmem : ∀ x, x ∈ l ↔ x ∈ l') : l = l' := by
  have hnodup : ∀ {l : List α}, l.Pairwise (fun a b => f a < f b) → l.Nodup := by
    intro l hl
    refine List.Pairwise.imp ?_ hl
    rintro a _ hlt rfl
    exact Nat.lt_irrefl _ hlt
  exact List.Perm.eq_of_pairwise (fun _ _ _ _ hab hba => absurd hab (Nat.lt_asymm hba)) h h'
    ((List.perm_ext_iff_of_nodup (hnodup h) (hnodup h')).mpr hmem)

/-- The row of an identity, or one made up for it if there is none. -/
def Table.rowOf (t : Table) (id : NodeId) : Row :=
  (t.get? id).getD ⟨id, Interval.root, Dict.empty⟩

theorem Table.rowOf_of_mem {t : Table} {r : Row} (h : r ∈ t.rows) : t.rowOf r.id = r := by
  rw [rowOf, get?_of_mem h]
  rfl

/-- A child in the tree has a row one level below its parent's, and the table names that one as its
parent. -/
theorem Table.Draws.exists_child {t : Table} {o : Outline} (h : t.Draws o) {p : Row}
    (hp : p ∈ t.rows) {x : Item} (hx : x ∈ o.grove.childrenOf p.id) :
    ∃ r ∈ t.rows, r.item = x ∧ r.interval.depth = p.interval.depth + 1 ∧
      t.parentOf r.id (-1) = .ok (some p) := by
  obtain ⟨below, above, hanswers⟩ := exists_answers h.rows hp
  obtain ⟨rows, hrows, hmem, hperm⟩ := hanswers.children []
  obtain ⟨r, hr, hitem⟩ := List.mem_map.mp (hperm.symm.subset hx)
  have hfind := Except.ok.inj ((childrenOf_of_mem hp [] true).symm.trans hrows)
  have haccepts := (mem_find.mp (hfind ▸ hr)).2
  have hbelow : Filter.below p.interval true =
      (Filter.inside p.interval).atDepth (p.interval.depth + 1) := rfl
  rw [hbelow, Filter.accepts_atDepth rfl, Bool.and_eq_true, beq_iff_eq] at haccepts
  exact ⟨r, hmem r hr, hitem, haccepts.2.symm,
    (hanswers.parent [] rows hrows r.id).mp (List.mem_map_of_mem hr)⟩

/-! ## Quotas -/

namespace Work

/-- The same copy, to which the store refuses nothing. -/
def free (w : Work) : Work :=
  ⟨w.table, Quota.unlimited⟩

variable {w w' : Work} {sentinel : Option Nat} {forest : Forest}

/-- An insertion that was not refused goes the same way without a quota. -/
theorem insertUnder_free {attributes : Attributes} {id : NodeId} {r : Row}
    (h : w.insertUnder attributes (some id) = .ok (r, w')) :
    w.free.insertUnder attributes (some id) = .ok (r, w'.free) := by
  simp only [insertUnder, free] at h ⊢
  cases hget : w.table.get? id with
  | none =>
    rw [hget] at h
    cases h
  | some parent =>
    rw [hget] at h
    have hplace : w.placeUnder attributes parent = .ok (r, w') := h
    have hdoes := does_placeUnder w attributes parent
    rw [hplace] at hdoes
    obtain ⟨hr, htable, -⟩ := hdoes
    dsimp only at hr htable ⊢
    rw [placeUnder_unlimited, hr, htable]

private theorem run_free {p p' : Import.Progress} {queue : List ((ExternalNode × Nat) × NodeId)}
    (h : Import.run sentinel forest p queue = .ok p') :
    Import.run sentinel forest { p with work := p.work.free } queue =
      .ok { p' with work := p'.work.free } := by
  fun_induction Import.run sentinel forest p queue with
  | case1 p =>
    cases h
    exact Import.run_nil
  | case2 p n i parent queue hi hlt e he => cases h
  | case3 p n i parent queue hi hlt r w hw ih =>
    rw [Import.run_store (p := { p with work := p.work.free }) hi (insertUnder_free hw)]
    exact ih h
  | case4 p n i parent queue hi ih =>
    rw [Import.run_pass (p := { p with work := p.work.free }) hi]
    exact ih h

/-- An import ends well if its target is there and no step of its run fails, and under the strict
policy if nothing is left out besides. -/
theorem importForest_eq_ok_iff {settings : ImportSettings} {target : NodeId}
    {report : ImportReport} :
    w.importForest settings forest target = .ok (report, w') ↔ w.table.get? target ≠ none ∧
      ∃ p, Import.run settings.sentinel forest ⟨w, List.range forest.length, 0, Dict.empty⟩
          ((Import.topNodes settings.sentinel forest).map (·, target)) = .ok p ∧
        (settings.dangling = .fail → p.waiting = []) ∧
          report = ⟨p.inserted, p.idMap, p.waiting⟩ ∧ w' = p.work := by
  rw [importForest]
  cases w.table.get? target with
  | none => simp
  | some r =>
    dsimp only
    cases Import.run settings.sentinel forest _ _ with
    | error e => simp
    | ok p =>
      dsimp only
      split
      · next hleft => simp [hleft]
      · next hleft =>
        have hall : settings.dangling = .fail → p.waiting = [] := fun hfail =>
          not_not.mp fun hne => hleft ⟨hfail, hne⟩
        constructor
        · intro h
          cases h
          exact ⟨Option.some_ne_none r, p, rfl, hall, rfl, rfl⟩
        · rintro ⟨-, q, hq, -, rfl, rfl⟩
          cases hq
          rfl

/-- An import that ended well goes the same way under the lenient policy and without a quota. -/
theorem importForest_free {settings : ImportSettings} {target : NodeId} {report : ImportReport}
    (h : w.importForest settings forest target = .ok (report, w')) :
    w.free.importForest ⟨settings.sentinel, .drop⟩ forest target = .ok (report, w'.free) := by
  obtain ⟨hr, p, hrun, -, rfl, rfl⟩ := importForest_eq_ok_iff.mp h
  exact importForest_eq_ok_iff.mpr ⟨hr, _, run_free hrun, Dangling.noConfusion, rfl, rfl⟩

end Work

namespace Store

/-- A unit of work succeeds if it ends well and is committed. -/
theorem change_eq_ok_iff {α : Type} {s s' : Store} {faults : Faults}
    {unit : Work → Except TreeError (α × Work)} {a : α} :
    s.change faults unit = (.ok a, s') ↔ ∃ w, unit ⟨s.table, faults.quota⟩ = .ok (a, w) ∧
      (if faults.conflict then s.slipIn else s).commit s.version w.table = .ok s' := by
  rw [change, write]
  cases unit ⟨s.table, faults.quota⟩ with
  | error e => simp
  | ok p =>
    dsimp only
    cases hcommit : (if faults.conflict then s.slipIn else s).commit s.version p.2.table with
    | error e =>
      constructor
      · intro h
        cases h
      · rintro ⟨w, hw, hcommit'⟩
        cases hw
        cases hcommit.symm.trans hcommit'
    | ok s'' =>
      constructor
      · intro h
        cases h
        exact ⟨p.2, rfl, hcommit⟩
      · rintro ⟨w, hw, hcommit'⟩
        cases hw
        cases hcommit.symm.trans hcommit'
        rfl

/-- A successful import left the table that its unit of work ended with. -/
theorem exists_work_of_importForest {s s' : Store} {faults : Faults}
    {settings : ImportSettings} {forest : Forest} {target : NodeId} {report : ImportReport}
    (h : s.importForest faults settings forest target = (.ok report, s')) :
    ∃ w, (Work.mk s.table faults.quota).importForest settings forest target = .ok (report, w) ∧
      s'.table = w.table := by
  have hchange : s.change faults (·.importForest settings forest target) = (.ok report, s') := by
    rw [importForest] at h
    split at h
    · cases h
    · exact h
  obtain ⟨w, hwork, hcommit⟩ := change_eq_ok_iff.mp hchange
  exact ⟨w, hwork, table_of_commit hcommit⟩

/-- Under the lenient policy, what an import comes to once its run is known and nobody slips in. -/
theorem importForest_of_run {s : Store} {quota : Quota} {sentinel : Option Nat} {forest : Forest}
    {target : NodeId} {p : Import.Progress} (htarget : s.table.get? target ≠ none)
    (hrun : Import.run sentinel forest ⟨⟨s.table, quota⟩, List.range forest.length, 0, Dict.empty⟩
      ((Import.topNodes sentinel forest).map (·, target)) = .ok p) :
    s.importForest ⟨quota, false⟩ ⟨sentinel, .drop⟩ forest target =
      (.ok ⟨p.inserted, p.idMap, p.waiting⟩, ⟨p.work.table, s.version.next⟩) :=
  change_eq_ok_iff.mpr ⟨p.work,
    Work.importForest_eq_ok_iff.mpr ⟨htarget, p, hrun, Dangling.noConfusion, rfl, rfl⟩,
    if_pos rfl⟩

end Store

namespace Import

variable {sentinel : Option Nat} {forest : Forest} {target : NodeId} {before now : Outline}
  {log : List Placement} {p : Progress} {queue : List ((ExternalNode × Nat) × NodeId)}

/-! ## The queue -/

/-- Along the log and then the queue, the parents ascend. All of them have been given out, and each
before what was stored under it. -/
structure InOrder (log : List Placement) (now : Outline)
    (queue : List ((ExternalNode × Nat) × NodeId)) : Prop where
  sorted : (log.map (·.parent.val) ++ queue.map (·.2.val)).Pairwise (· ≤ ·)
  given : ∀ m ∈ log.map (·.parent.val) ++ queue.map (·.2.val), m < now.nextId
  earlier : ∀ e ∈ log, e.parent.val < e.id.val

/-- The entry at the front goes to the end of the log, and what joins the queue has a parent that
comes after all parents so far. -/
theorem kept_inOrder (sentinel : Option Nat) (forest : Forest) :
    Kept sentinel forest InOrder where
  pass {log now e queue} h := {
    sorted := h.sorted.sublist ((List.sublist_cons_self _ _).append_left _)
    given := fun m hm => h.given m
      (((List.sublist_cons_self e.2.val (queue.map (·.2.val))).append_left _).subset hm)
    earlier := h.earlier }
  store {log now n i parent queue} h := by
    let id : NodeId := ⟨now.nextId⟩
    have hparents : (log ++ [placed ((n, i), parent) id]).map (·.parent.val) ++
        (queue ++ (nodesUnder sentinel forest n.id).map (·, id)).map (·.2.val) =
          (log.map (·.parent.val) ++ (((n, i), parent) :: queue).map (·.2.val)) ++
            (nodesUnder sentinel forest n.id).map fun _ => now.nextId := by
      simp [placed, id, Function.comp_def]
    have hnew : ∀ m ∈ (nodesUnder sentinel forest n.id).map fun _ => now.nextId,
        m = now.nextId := by
      intro m hm
      obtain ⟨_, -, rfl⟩ := List.mem_map.mp hm
      rfl
    constructor
    case sorted =>
      rw [hparents, List.pairwise_append]
      refine ⟨h.sorted, List.pairwise_map.mpr (List.pairwise_of_forall fun _ _ => le_rfl), ?_⟩
      intro m hm m' hm'
      rw [hnew m' hm']
      exact Nat.le_of_lt (h.given m hm)
    case given =>
      rw [hparents]
      intro m hm
      have hnext : (now.place n.attributes parent).nextId = now.nextId + 1 := rfl
      rcases List.mem_append.mp hm with hm | hm
      · have := h.given m hm
        omega
      · have := hnew m hm
        omega
    case earlier =>
      intro e he
      rcases List.mem_append.mp he with he | he
      · exact h.earlier e he
      · cases List.mem_singleton.mp he
        exact h.given parent.val (by simp)

private theorem inOrder_start (before : Outline) {target : NodeId}
    (htarget : target.val < before.nextId) (sentinel : Option Nat) (forest : Forest) :
    InOrder [] before ((topNodes sentinel forest).map (·, target)) where
  sorted := by
    rw [List.map_nil, List.nil_append, List.map_map]
    exact List.pairwise_map.mpr (List.pairwise_of_forall fun _ _ => le_rfl)
  given := by
    intro m hm
    rw [List.map_nil, List.nil_append, List.map_map] at hm
    obtain ⟨_, -, rfl⟩ := List.mem_map.mp hm
    exact htarget
  earlier := by simp

/-- When the queue is empty the parents ascend along the log. -/
theorem InOrder.pairwise_parents (h : InOrder log now []) :
    log.Pairwise fun a b => a.parent.val ≤ b.parent.val := by
  have hsorted := h.sorted
  rwa [List.map_nil, List.append_nil, List.pairwise_map] at hsorted

/-! ## The log -/

theorem pairwise_positions (forest : Forest) : forest.zipIdx.Pairwise fun a b => a.2 < b.2 := by
  refine List.pairwise_map.mp ?_
  rw [List.zipIdx_map_snd]
  exact List.pairwise_lt_range'

namespace Sofar

theorem map_id_val (h : Sofar sentinel forest target before log now p queue) :
    log.map (·.id.val) = List.range' before.nextId log.length := by
  have hvals := congrArg (List.map NodeId.val) h.grown.ids
  rw [List.map_map, List.map_map] at hvals
  rw [List.range'_eq_map_range]
  exact hvals

theorem pairwise_ids (h : Sofar sentinel forest target before log now p queue) :
    log.Pairwise fun a b => a.id.val < b.id.val :=
  List.pairwise_map.mp (h.map_id_val ▸ List.pairwise_lt_range')

/-- The nodes placed under one node come in the order of the forest. -/
theorem pairwise_siblings (h : Sofar sentinel forest target before log now p []) (m : NodeId) :
    (log.filter (·.parent = m)).Pairwise fun a b => a.entry.2 < b.entry.2 := by
  have hfamily := h.families m
  rw [due, List.filter_nil, List.map_nil, List.append_nil] at hfamily
  have hpositions : (family sentinel forest target p.idMap m).Pairwise fun a b => a.2 < b.2 :=
    (pairwise_positions forest).filter _
  rwa [← hfamily, List.pairwise_map] at hpositions

/-- The log is in the order of the parents, and under one parent in the order of the forest. -/
theorem pairwise_placed (h : Sofar sentinel forest target before log now p [])
    (ho : InOrder log now []) :
    log.Pairwise fun a b => a.parent.val < b.parent.val ∨
      (a.parent = b.parent ∧ a.entry.2 < b.entry.2) := by
  have hsorted := ho.pairwise_parents
  rw [List.pairwise_iff_forall_sublist] at hsorted ⊢
  intro a b hab
  rcases Nat.lt_or_eq_of_le (hsorted hab) with hlt | heq
  · exact .inl hlt
  · have hparent : a.parent = b.parent := congrArg NodeId.mk heq
    have hfilter : [a, b] = [a, b].filter (·.parent = b.parent) := by simp [hparent]
    have hsublist := hab.filter (·.parent = b.parent)
    rw [← hfilter] at hsublist
    exact .inr ⟨hparent, List.pairwise_iff_forall_sublist.mp (h.pairwise_siblings _) hsublist⟩

/-- What was stored went under the target or under what had been stored. -/
theorem parent_cases (h : Sofar sentinel forest target before log now p queue) {e : Placement}
    (he : e ∈ log) : e.parent = target ∨ ∃ e' ∈ log, e'.id = e.parent := by
  obtain ⟨-, hhome⟩ := mem_family.mp (h.mem_family_of_mem_log he)
  rw [home?] at hhome
  split at hhome
  · exact .inl (Option.some.inj hhome).symm
  · obtain ⟨q, -, hq⟩ := Option.bind_eq_some_iff.mp hhome
    rw [h.idMap] at hq
    obtain ⟨e', he', hid⟩ := Option.map_eq_some_iff.mp hq
    exact .inr ⟨e', List.mem_of_find?_eq_some he', hid⟩

/-- The first node in the log with an external identity has the smallest identity. -/
theorem idMap_eq_some_iff (h : Sofar sentinel forest target before log now p queue) (q : Nat)
    (id : NodeId) : p.idMap.get? q = some id ↔
      (∃ e ∈ log, e.entry.1.id = some q ∧ e.id = id) ∧
        ∀ e ∈ log, e.entry.1.id = some q → id.val ≤ e.id.val := by
  have hfirst : ∀ e, log.find? (·.entry.1.id = some q) = some e →
      ∀ a ∈ log, a.entry.1.id = some q → e.id.val ≤ a.id.val := by
    intro e he a ha hq
    obtain ⟨-, earlier, later, hsplit, hearlier⟩ := List.find?_eq_some_iff_append.mp he
    have hids := h.pairwise_ids
    rw [hsplit] at ha hids
    rcases List.mem_append.mp ha with ha | ha
    · exact absurd hq (by simpa using hearlier a ha)
    · rcases List.mem_cons.mp ha with rfl | ha
      · exact Nat.le_refl _
      · exact Nat.le_of_lt (List.rel_of_pairwise_cons (List.pairwise_append.mp hids).2.1 ha)
  rw [h.idMap, Option.map_eq_some_iff]
  constructor
  · rintro ⟨e, he, rfl⟩
    exact ⟨⟨e, List.mem_of_find?_eq_some he, by simpa using List.find?_some he, rfl⟩,
      hfirst e he⟩
  · rintro ⟨⟨a, ha, hq, rfl⟩, hmin⟩
    have hsome : (log.find? (·.entry.1.id = some q)).isSome = true :=
      List.find?_isSome.mpr ⟨a, ha, by simpa using hq⟩
    obtain ⟨e, he⟩ := Option.isSome_iff_exists.mp hsome
    have hle := hfirst e he a ha hq
    have hge := hmin e (List.mem_of_find?_eq_some he) (by simpa using List.find?_some he)
    exact ⟨e, he, congrArg NodeId.mk (Nat.le_antisymm hle hge)⟩

theorem exists_rows (h : Sofar sentinel forest target before log now p queue) {e : Placement}
    (he : e ∈ log) : ∃ r ∈ p.work.table.rows, ∃ m ∈ p.work.table.rows,
      r.item = e.item ∧ m.id = e.parent ∧ r.interval.depth = m.interval.depth + 1 ∧
        p.work.table.parentOf r.id (-1) = .ok (some m) := by
  have hparent := h.home_mem (mem_family.mp (h.mem_family_of_mem_log he)).2
  obtain ⟨m, hm⟩ := h.draws.exists_of_mem hparent
  obtain ⟨hmem, hid⟩ := Table.get?_eq_some_iff.mp hm
  have hchild : e.item ∈ now.grove.childrenOf m.id := by
    rw [h.grown.children, List.mem_append]
    exact .inr (List.mem_map_of_mem (List.mem_filter.mpr ⟨he, by simp [hid]⟩))
  obtain ⟨r, hr, hitem, hdepth, hparentOf⟩ := h.draws.exists_child hmem hchild
  exact ⟨r, hr, m, hmem, hitem, hid, hdepth, hparentOf⟩

end Sofar

/-! ## Levels -/

/-- The target and the nodes in a log. -/
def Placed (target : NodeId) (log : List Placement) (id : NodeId) : Prop :=
  id = target ∨ ∃ e ∈ log, e.id = id

/-- If parents ascend along a log, depths do: the parents of two nodes were placed before, so they
compare as the nodes do. -/
theorem depth_le_depth {depth : NodeId → Nat}
    (hids : log.Pairwise fun a b => a.id.val < b.id.val)
    (hparents : log.Pairwise fun a b => a.parent.val ≤ b.parent.val)
    (hearlier : ∀ e ∈ log, e.parent.val < e.id.val)
    (hplaced : ∀ e ∈ log, Placed target log e.parent)
    (htarget : ∀ e ∈ log, target.val < e.id.val)
    (hdepth : ∀ e ∈ log, depth e.id = depth e.parent + 1) {x y : NodeId}
    (hx : Placed target log x) (hy : Placed target log y) (hle : x.val ≤ y.val) :
    depth x ≤ depth y := by
  have hleast : ∀ z, Placed target log z → target.val ≤ z.val := by
    rintro z (rfl | ⟨e, he, rfl⟩)
    · exact Nat.le_refl _
    · exact Nat.le_of_lt (htarget e he)
  have hmono : ∀ e ∈ log, ∀ f ∈ log, e.id.val < f.id.val → e.parent.val ≤ f.parent.val := by
    intro e he f hf hlt
    obtain ⟨i, hi, rfl⟩ := List.getElem_of_mem he
    obtain ⟨j, hj, rfl⟩ := List.getElem_of_mem hf
    rcases Nat.lt_trichotomy i j with hij | rfl | hji
    · exact List.pairwise_iff_getElem.mp hparents i j hi hj hij
    · exact absurd hlt (Nat.lt_irrefl _)
    · exact absurd hlt (Nat.lt_asymm (List.pairwise_iff_getElem.mp hids j i hj hi hji))
  induction hn : y.val using Nat.strongRecOn generalizing x y with
  | ind n ih =>
    subst hn
    rcases Nat.lt_or_eq_of_le hle with hlt | heq
    case inr => rw [show x = y from congrArg NodeId.mk heq]
    rcases hy with rfl | ⟨f, hf, rfl⟩
    · exact absurd (hleast x hx) (Nat.not_le_of_lt hlt)
    · have hparent := hplaced f hf
      rw [hdepth f hf]
      rcases hx with rfl | ⟨e, he, rfl⟩
      · exact Nat.le_succ_of_le
          (ih _ (hearlier f hf) (.inl rfl) hparent (hleast _ hparent) rfl)
      · rw [hdepth e he]
        exact Nat.succ_le_succ
          (ih _ (hearlier f hf) (hplaced e he) hparent (hmono e he f hf hlt) rfl)

/-- A node that an import stored: its row, the row above it, and the node of the forest that it was
made from, with its position. -/
structure Arrival where
  row : Row
  parent : Row
  entry : ExternalNode × Nat

def Arrival.depth (a : Arrival) : Nat :=
  a.row.interval.depth

/-- What a log says, told by the rows of a table. -/
def arrival (t : Table) (e : Placement) : Arrival :=
  ⟨t.rowOf e.id, t.rowOf e.parent, e.entry⟩

/-- The arrivals are the new rows of the table, in the order of their identities, which are the next
ones without a gap. Each is made from a node of the forest that was not left out, and stands under
the node that this belongs under. The depths start one below the target and never decrease; on one
level the arrivals are ordered by their parents and then by their positions. An external identity
that repeats is noted for the arrival with the smallest identity. -/
structure LevelByLevel (sentinel : Option Nat) (forest : Forest) (target : Row)
    (before after : Table) (report : ImportReport) (arrivals : List Arrival) : Prop where
  rows : arrivals.map (·.row) = after.rows.filter (before.nextId ≤ ·.id.val)
  ids : arrivals.map (·.row.id.val) = List.range' before.nextId report.inserted
  nextId : after.nextId = before.nextId + report.inserted
  entries : (arrivals.map (·.entry)).Perm (report.stored forest)
  attributes : ∀ a ∈ arrivals, a.row.attributes = a.entry.1.attributes
  homes : ∀ a ∈ arrivals, home? sentinel target.id report.idMap a.entry.1 = some a.parent.id
  parents : ∀ a ∈ arrivals, after.parentOf a.row.id (-1) = .ok (some a.parent)
  later : ∀ a ∈ arrivals, a.parent.id.val < a.row.id.val
  first : ∀ a, arrivals.head? = some a → a.depth = target.interval.depth + 1
  levels : arrivals.Pairwise fun a b => a.depth ≤ b.depth
  within : arrivals.Pairwise fun a b => a.depth = b.depth →
    a.parent.id.val < b.parent.id.val ∨ (a.parent = b.parent ∧ a.entry.2 < b.entry.2)
  idMap : ∀ q id, report.idMap.get? q = some id ↔
    (∃ a ∈ arrivals, a.entry.1.id = some q ∧ a.row.id = id) ∧
      ∀ a ∈ arrivals, a.entry.1.id = some q → id.val ≤ a.row.id.val

namespace Sofar

/-- The rows that an entry of the log tells of. -/
theorem arrival_spec (h : Sofar sentinel forest target before log now p queue) {e : Placement}
    (he : e ∈ log) :
    (arrival p.work.table e).row ∈ p.work.table.rows ∧
      (arrival p.work.table e).row.item = e.item ∧
      (arrival p.work.table e).parent.id = e.parent ∧
      (arrival p.work.table e).depth = (arrival p.work.table e).parent.interval.depth + 1 ∧
      p.work.table.parentOf e.id (-1) = .ok (some (arrival p.work.table e).parent) := by
  obtain ⟨r, hr, m, hm, hitem, hparent, hdepth, hparentOf⟩ := h.exists_rows he
  have hid : r.id = e.id := congrArg Item.id hitem
  have hrow : p.work.table.rowOf e.id = r := hid ▸ Table.rowOf_of_mem hr
  have hm' : p.work.table.rowOf e.parent = m := hparent ▸ Table.rowOf_of_mem hm
  simp only [arrival, Arrival.depth, hrow, hm']
  exact ⟨hr, hitem, hparent, hdepth, hid ▸ hparentOf⟩

theorem arrival_id (h : Sofar sentinel forest target before log now p queue) {e : Placement}
    (he : e ∈ log) : (arrival p.work.table e).row.id = e.id :=
  congrArg Item.id (h.arrival_spec he).2.1

private theorem nextId_le (h : Sofar sentinel forest target before log now p queue) {e : Placement}
    (he : e ∈ log) : before.nextId ≤ e.id.val := by
  have hmem : e.id.val ∈ log.map (·.id.val) := List.mem_map_of_mem he
  rw [h.map_id_val] at hmem
  exact (List.mem_range'_1.mp hmem).1

variable {t : Table} {r : Row}

/-- The target stays at its depth. -/
theorem depth_target (h : Sofar sentinel forest r.id before log now p queue) (ht : t.Draws before)
    (hr : r ∈ t.rows) : (p.work.table.rowOf r.id).interval.depth = r.interval.depth := by
  obtain ⟨r', hr', hitem, hdepth⟩ := h.grown.kept r (ht.rows.subset hr)
  have hid : r'.id = r.id := congrArg Item.id hitem
  rw [← hid, Table.rowOf_of_mem (h.draws.rows.symm.subset hr'), hdepth]

private theorem map_row_eq (h : Sofar sentinel forest target before log now p queue)
    (ht : t.Draws before) :
    (log.map (arrival p.work.table)).map (·.row) =
      p.work.table.rows.filter (t.nextId ≤ ·.id.val) := by
  rw [List.map_map]
  have hasc : (log.map ((·.row) ∘ arrival p.work.table)).Pairwise
      fun a b => a.id.val < b.id.val := by
    rw [List.pairwise_map]
    refine h.pairwise_ids.imp_of_mem fun {a b} ha hb hlt => ?_
    rwa [Function.comp_apply, Function.comp_apply, h.arrival_id ha, h.arrival_id hb]
  refine eq_of_ascending hasc (p.work.table.ascending.filter _) fun x => ?_
  rw [List.mem_map, List.mem_filter, decide_eq_true_eq]
  constructor
  · rintro ⟨e, he, rfl⟩
    refine ⟨(h.arrival_spec he).1, ?_⟩
    rw [Function.comp_apply, h.arrival_id he, ht.nextId]
    exact h.nextId_le he
  · rintro ⟨hx, hle⟩
    rcases h.grown.mem_ids_iff.mp (h.draws.id_mem hx) with hold | ⟨e, he, hid⟩
    · have := ht.fresh _ hold
      rw [ht.nextId] at hle
      omega
    · refine ⟨e, he, ?_⟩
      rw [Function.comp_apply, arrival, hid, Table.rowOf_of_mem hx]

/-- What a traversal that is at its end has stored came level by level. -/
theorem levelByLevel (h : Sofar sentinel forest r.id before log now p []) (ho : InOrder log now [])
    (ht : t.Draws before) (hr : r ∈ t.rows) :
    LevelByLevel sentinel forest r t p.work.table ⟨p.inserted, p.idMap, p.waiting⟩
      (log.map (arrival p.work.table)) := by
  have htarget : ∀ e ∈ log, r.id.val < e.id.val := fun e he =>
    Nat.lt_of_lt_of_le (ht.fresh _ (ht.id_mem hr)) (h.nextId_le he)
  have hids : log.map (fun e => (arrival p.work.table e).row.id.val) = log.map (·.id.val) :=
    List.map_congr_left fun e he => congrArg NodeId.val (h.arrival_id he)
  constructor
  case rows => exact h.map_row_eq ht
  case ids =>
    rw [List.map_map, h.inserted, ht.nextId]
    exact hids.trans h.map_id_val
  case nextId => rw [h.draws.nextId, ht.nextId, h.grown.nextId, h.inserted]
  case entries =>
    rw [List.map_map]
    exact h.map_entry_perm
  case attributes =>
    intro a ha
    obtain ⟨e, he, rfl⟩ := List.mem_map.mp ha
    exact congrArg Item.attributes (h.arrival_spec he).2.1
  case homes =>
    intro a ha
    obtain ⟨e, he, rfl⟩ := List.mem_map.mp ha
    rw [(h.arrival_spec he).2.2.1]
    exact (mem_family.mp (h.mem_family_of_mem_log he)).2
  case parents =>
    intro a ha
    obtain ⟨e, he, rfl⟩ := List.mem_map.mp ha
    rw [h.arrival_id he]
    exact (h.arrival_spec he).2.2.2.2
  case later =>
    intro a ha
    obtain ⟨e, he, rfl⟩ := List.mem_map.mp ha
    rw [h.arrival_id he, (h.arrival_spec he).2.2.1]
    exact ho.earlier e he
  case first =>
    intro a ha
    rw [List.head?_map, Option.map_eq_some_iff] at ha
    obtain ⟨e, he, rfl⟩ := ha
    obtain ⟨rest, rfl⟩ := List.head?_eq_some_iff.mp he
    have hmem : e ∈ e :: rest := List.mem_cons_self
    have hparent : e.parent = r.id := by
      refine (h.parent_cases hmem).resolve_right ?_
      rintro ⟨e', he', hid⟩
      have hlt := ho.earlier e hmem
      rw [← hid] at hlt
      rcases List.mem_cons.mp he' with rfl | he'
      · exact Nat.lt_irrefl _ hlt
      · exact Nat.lt_asymm hlt (List.rel_of_pairwise_cons h.pairwise_ids he')
    rw [(h.arrival_spec hmem).2.2.2.1, arrival, hparent, h.depth_target ht hr]
  case levels =>
    let depth (id : NodeId) : Nat := (p.work.table.rowOf id).interval.depth
    have hdepth : ∀ e ∈ log, depth e.id = depth e.parent + 1 := fun e he =>
      (h.arrival_spec he).2.2.2.1
    refine List.pairwise_map.mpr (h.pairwise_ids.imp_of_mem fun {a b} ha hb hlt => ?_)
    exact depth_le_depth h.pairwise_ids ho.pairwise_parents ho.earlier
      (fun e he => h.parent_cases he) htarget hdepth (.inr ⟨a, ha, rfl⟩) (.inr ⟨b, hb, rfl⟩)
      (Nat.le_of_lt hlt)
  case within =>
    refine List.pairwise_map.mpr ((h.pairwise_placed ho).imp_of_mem fun {a b} ha hb hab _ => ?_)
    rw [(h.arrival_spec ha).2.2.1, (h.arrival_spec hb).2.2.1]
    exact hab.imp_right fun hsame => ⟨congrArg p.work.table.rowOf hsame.1, hsame.2⟩
  case idMap =>
    intro q id
    rw [h.idMap_eq_some_iff q id]
    simp only [List.mem_map, exists_exists_and_eq_and, forall_exists_index, and_imp,
      forall_apply_eq_imp_iff₂]
    refine and_congr (exists_congr fun e => and_congr_right fun he => ?_)
      (forall_congr' fun e => forall_congr' fun he => ?_)
    · rw [h.arrival_id he]
      rfl
    · rw [h.arrival_id he]
      rfl

end Sofar

end Import

/-- A successful import into a sound table, under whatever policy and quotas, stores the nodes level
by level; and a table that commands lead to is sound if its rows pass the check. -/
theorem imports_go_level_by_level :
    (∀ s : Store, s.table.Sound → ∀ faults settings forest target report s',
      s.importForest faults settings forest target = (.ok report, s') →
        ∃ r arrivals, s.table.get? target = some r ∧
          Import.LevelByLevel settings.sentinel forest r s.table s'.table report arrivals) ∧
    ∀ (first second : Settings) (commands : List (Bool × Session.Command)) (summary : Summary),
      let t := ((Session.start first second).finish commands).store.table
      Numbering.check t.rows = .ok summary → t.Sound := by
  refine ⟨fun s h faults settings forest target report s' hok => ?_,
    fun first second commands summary => Session.sound_of_check first second commands⟩
  obtain ⟨o, ho⟩ := Table.sound_iff_draws.mp h
  obtain ⟨w, hwork, htable⟩ := Store.exists_work_of_importForest hok
  have hfree := Work.importForest_free hwork
  obtain ⟨r, hr⟩ : ∃ r, s.table.get? target = some r := by
    cases hget : s.table.get? target with
    | some r => exact ⟨r, rfl⟩
    | none => simp [Work.importForest, Work.free, hget] at hfree
  obtain ⟨hmem, rfl⟩ := Table.get?_eq_some_iff.mp hr
  have hgiven := ho.fresh _ (ho.id_mem hmem)
  obtain ⟨log, now, p, hend, horder, himport⟩ :=
    Work.exists_sofar_of (w := (Work.mk s.table faults.quota).free) ho rfl (ho.id_mem hmem)
      (Import.kept_inOrder settings.sentinel forest)
      (Import.inOrder_start o hgiven settings.sentinel forest)
  rw [hfree] at himport
  obtain ⟨rfl, hw⟩ := Prod.mk.inj (Except.ok.inj himport)
  have hlevels := hend.levelByLevel horder ho hmem
  have hafter : s'.table = p.work.table := by
    rw [htable, ← hw]
    rfl
  rw [← hafter] at hlevels
  exact ⟨r, _, hr, hlevels⟩

/-- Under a lone root, with as many insertions allowed as are needed: an identity that repeats, a
node that refers to it and stands before it, a node below that, and two nodes that refer to each
other. And a root that one command stored. -/
theorem imports_go_level_by_level_lone_root :
    let s : Store := ⟨(Table.empty.insert Dict.empty Interval.root).2, ⟨1⟩⟩
    let forest : Forest := [.bare (some 9) (some 6), .bare (some 6) (some 5), .bare (some 5) none,
      .bare (some 5) (some 0), .bare (some 7) (some 8), .bare (some 8) (some 7)]
    let faults : Faults := ⟨⟨some 4, none, none⟩, false⟩
    let report : ImportReport := ⟨4, Dict.ofList [(5, ⟨2⟩), (6, ⟨4⟩), (9, ⟨5⟩)], [4, 5]⟩
    let s' := (s.importForest faults .default forest ⟨1⟩).2
    let t := ((Session.start .default .default).finish
      [(false, .insertRoot Dict.empty)]).store.table
    s.table.Sound ∧ s.importForest faults .default forest ⟨1⟩ = (.ok report, s') ∧
      (∃ r arrivals, s.table.get? ⟨1⟩ = some r ∧
        Import.LevelByLevel (some 0) forest r s.table s'.table report arrivals) ∧
      Numbering.check t.rows = .ok ⟨1, 1, 0⟩ ∧ t.Sound := by
  intro s forest faults report s' t
  have hsound : s.table.Sound :=
    Table.sound_iff_draws.mpr ⟨_, Table.Draws.empty.plant rfl Dict.empty⟩
  have htarget : s.table.get? ⟨1⟩ ≠ none := Option.some_ne_none _
  -- the position 1 comes into the queue under either of the nodes with the identity 5
  obtain ⟨p, hrun, hp⟩ : ∃ p, Import.run (some 0) forest ⟨⟨s.table, faults.quota⟩, List.range 6, 0,
      Dict.empty⟩ ((Import.topNodes (some 0) forest).map (·, ⟨1⟩)) = .ok p ∧
      ⟨p.inserted, p.idMap, p.waiting⟩ = report :=
    ⟨_, (Import.run_store (by decide) rfl).trans <| (Import.run_store (by decide) rfl).trans <|
      (Import.run_store (by decide) rfl).trans <| (Import.run_pass (by decide)).trans <|
      (Import.run_store (by decide) rfl).trans Import.run_nil, rfl⟩
  have himport := Store.importForest_of_run htarget hrun
  rw [hp] at himport
  have hok : s.importForest faults .default forest ⟨1⟩ = (.ok report, s') :=
    Prod.ext (congrArg Prod.fst himport :) rfl
  exact ⟨hsound, hok, imports_go_level_by_level.1 s hsound faults .default forest ⟨1⟩ report s' hok,
    Table.check_loneRoot, imports_go_level_by_level.2 .default .default
      [(false, .insertRoot Dict.empty)] _ Table.check_loneRoot⟩

end FlatTree
