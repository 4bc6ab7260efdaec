import FlatTree.Hierarchy.Import
import FlatTree.Proofs.Placements

/-!
# The traversal of an import

An import works through a queue in which a position may stand more than once, under different
nodes. It is stored where it stands first. What holds after each step is told with a log of what was
stored: the identities noted are those of the first nodes in the log, and for every stored node, its
new children in the log and in the queue together are those that belong under it, in the order of
the forest.
-/

namespace FlatTree

namespace Import

/-- The positions an import comes to: the top of the forest, and all that refers to the external
identity of a node it comes to. -/
inductive Reached (sentinel : Option Nat) (forest : Forest) : Nat → Prop
  | top {i : Nat} {n : ExternalNode} : forest[i]? = some n → isTop sentinel n = true →
    Reached sentinel forest i
  | under {i j q : Nat} {n m : ExternalNode} : Reached sentinel forest j → forest[j]? = some m →
    m.id = some q → forest[i]? = some n → isTop sentinel n = false → n.parent = some q →
    Reached sentinel forest i

/-- The stored node that an external node belongs under, if it is known yet. -/
def home? (sentinel : Option Nat) (target : NodeId) (idMap : Dict Nat NodeId) (n : ExternalNode) :
    Option NodeId :=
  if isTop sentinel n then some target else n.parent.bind idMap.get?

/-- The nodes that belong under one stored node, with their positions. -/
def family (sentinel : Option Nat) (forest : Forest) (target : NodeId) (idMap : Dict Nat NodeId)
    (m : NodeId) : List (ExternalNode × Nat) :=
  forest.zipIdx.filter fun e => home? sentinel target idMap e.1 = some m

/-! ## Queues -/

/-- What of a queue will be stored: the first entry of every position that was not seen before. -/
def due (seen : List Nat) :
    List ((ExternalNode × Nat) × NodeId) → List ((ExternalNode × Nat) × NodeId)
  | [] => []
  | e :: queue => if e.1.2 ∈ seen then due seen queue else e :: due (e.1.2 :: seen) queue

variable {seen : List Nat} {queue : List ((ExternalNode × Nat) × NodeId)}

theorem due_congr {seen' : List Nat} (h : ∀ i, i ∈ seen ↔ i ∈ seen') :
    due seen queue = due seen' queue := by
  induction queue generalizing seen seen' with
  | nil => rfl
  | cons e queue ih =>
    have hcons : ∀ i, i ∈ e.1.2 :: seen ↔ i ∈ e.1.2 :: seen' := by
      intro i
      rw [List.mem_cons, List.mem_cons, h]
    simp only [due, h e.1.2, ih h, ih hcons]

private theorem due_append (seen : List Nat) (queue queue' : List ((ExternalNode × Nat) × NodeId)) :
    due seen (queue ++ queue') =
      due seen queue ++ due (queue.map (·.1.2) ++ seen) queue' := by
  induction queue generalizing seen with
  | nil => rfl
  | cons e queue ih =>
    rw [List.cons_append, due, due]
    by_cases he : e.1.2 ∈ seen
    · rw [if_pos he, if_pos he, ih]
      refine congrArg (due seen queue ++ ·) (due_congr fun i => ?_)
      simp only [List.mem_append, List.map_cons, List.mem_cons]
      constructor
      · exact fun h => h.imp_left .inr
      · rintro ((rfl | h) | h)
        · exact .inr he
        · exact .inl h
        · exact .inr h
    · rw [if_neg he, if_neg he, ih, List.cons_append]
      refine congrArg (fun l => e :: (due (e.1.2 :: seen) queue ++ l)) (due_congr fun i => ?_)
      simp only [List.mem_append, List.map_cons, List.mem_cons]
      tauto

theorem mem_of_mem_due {e : (ExternalNode × Nat) × NodeId} (h : e ∈ due seen queue) :
    e ∈ queue := by
  induction queue generalizing seen with
  | nil => exact h
  | cons a queue ih =>
    rw [due] at h
    split at h
    · exact List.mem_cons_of_mem _ (ih h)
    · rcases List.mem_cons.mp h with rfl | h
      · exact List.mem_cons_self
      · exact List.mem_cons_of_mem _ (ih h)

/-- Every position of a queue was seen or will be stored. -/
theorem exists_mem_due {e : (ExternalNode × Nat) × NodeId} (h : e ∈ queue) (hseen : e.1.2 ∉ seen) :
    ∃ e' ∈ due seen queue, e'.1.2 = e.1.2 := by
  induction queue generalizing seen with
  | nil => cases h
  | cons a queue ih =>
    rw [due]
    by_cases ha : a.1.2 ∈ seen
    · rw [if_pos ha]
      rcases List.mem_cons.mp h with rfl | h
      · exact absurd ha hseen
      · exact ih h hseen
    · rw [if_neg ha]
      by_cases heq : e.1.2 = a.1.2
      · exact ⟨a, List.mem_cons_self, heq.symm⟩
      · rcases List.mem_cons.mp h with rfl | h
        · exact absurd rfl heq
        · have hnot : e.1.2 ∉ a.1.2 :: seen := by simp [heq, hseen]
          obtain ⟨e', he', hpos⟩ := ih h hnot
          exact ⟨e', List.mem_cons_of_mem _ he', hpos⟩

private theorem due_of_nodup (h : (queue.map (·.1.2)).Nodup) :
    due seen queue = queue.filter (·.1.2 ∉ seen) := by
  induction queue generalizing seen with
  | nil => rfl
  | cons e queue ih =>
    rw [List.map_cons, List.nodup_cons] at h
    rw [due]
    by_cases he : e.1.2 ∈ seen
    · rw [if_pos he, ih h.2, List.filter_cons_of_neg (by simpa using he)]
    · rw [if_neg he, ih h.2, List.filter_cons_of_pos (by simpa using he)]
      refine congrArg (e :: ·) (List.filter_congr fun a ha => ?_)
      have hne : a.1.2 ≠ e.1.2 := fun heq => h.1 (heq ▸ List.mem_map_of_mem ha)
      simp [hne]

/-- Of entries that all stand under one node, those not seen before will be stored under it, and
none under another. -/
theorem due_under {l : List (ExternalNode × Nat)} (h : (l.map (·.2)).Nodup) (x m : NodeId) :
    ((due seen (l.map (·, x))).filter (·.2 = m)).map (·.1) =
      if x = m then l.filter (·.2 ∉ seen) else [] := by
  have hnodup : ((l.map fun e => (e, x)).map (·.1.2)).Nodup := by
    rw [List.map_map]
    exact h
  rw [due_of_nodup hnodup, List.filter_map, List.filter_map, List.map_map]
  by_cases hx : x = m
  · simp [hx, Function.comp_def]
  · simp [hx, Function.comp_def]

/-! ## Homes -/

theorem eq_of_mem_zipIdx {forest : Forest} {e e' : ExternalNode × Nat} (h : e ∈ forest.zipIdx)
    (h' : e' ∈ forest.zipIdx) (hpos : e.2 = e'.2) : e = e' := by
  rw [List.mem_zipIdx_iff_getElem?] at h h'
  rw [hpos, h'] at h
  exact Prod.ext (Option.some.inj h).symm hpos

theorem nodup_positions (forest : Forest) (p : ExternalNode × Nat → Bool) :
    ((forest.zipIdx.filter p).map (·.2)).Nodup := by
  refine List.Nodup.sublist ((List.filter_sublist).map _) ?_
  rw [List.zipIdx_map_snd]
  exact List.nodup_range'

theorem nodup_topNodes (sentinel : Option Nat) (forest : Forest) :
    ((topNodes sentinel forest).map (·.2)).Nodup :=
  nodup_positions forest _

theorem nodup_nodesUnder (sentinel : Option Nat) (forest : Forest) (id : Option Nat) :
    ((nodesUnder sentinel forest id).map (·.2)).Nodup :=
  nodup_positions forest _

theorem note_get? (idMap : Dict Nat NodeId) (id : Option Nat) (stored : NodeId) (q : Nat) :
    (note idMap id stored).get? q =
      (idMap.get? q).or (if id = some q then some stored else none) := by
  cases id with
  | none => simp [note]
  | some k =>
    by_cases hk : k = q
    · subst hk
      cases hget : idMap.get? k with
      | none => simp [note, hget, Dict.get?_put_self]
      | some x => simp [note, hget]
    · have hne : compare q k ≠ .eq := by
        intro h
        exact hk (Nat.compare_eq_eq.mp h).symm
      rw [note]
      split
      · simp [hk]
      · simp [hk, Dict.get?_put_of_ne _ _ hne]

/-- Noting an identity gives a home to the nodes that refer to it, if they have none. -/
theorem home?_note (sentinel : Option Nat) (target : NodeId) (idMap : Dict Nat NodeId)
    (id : Option Nat) (stored : NodeId) (n : ExternalNode) :
    home? sentinel target (note idMap id stored) n = (home? sentinel target idMap n).or
      (if id.isSome && !isTop sentinel n && n.parent == id then some stored else none) := by
  rw [home?, home?]
  by_cases htop : isTop sentinel n = true
  · simp [htop]
  · rw [if_neg htop, if_neg htop]
    cases hp : n.parent with
    | none => simp [isTop, hp] at htop
    | some q =>
      rw [Option.bind_some, Option.bind_some, note_get?]
      by_cases hid : id = some q
      · simp [hid, htop]
      · simp [hid, Ne.symm hid]

theorem mem_family {sentinel : Option Nat} {forest : Forest} {target m : NodeId}
    {idMap : Dict Nat NodeId} {e : ExternalNode × Nat} :
    e ∈ family sentinel forest target idMap m ↔
      e ∈ forest.zipIdx ∧ home? sentinel target idMap e.1 = some m := by
  simp [family]

/-! ## What has been stored so far -/

/-- An entry of the queue that has been stored. -/
def placed (e : (ExternalNode × Nat) × NodeId) (id : NodeId) : Placement :=
  ⟨e.1, e.2, id⟩

/-- After the placements in `log`, with `queue` still to come, the tree is `now`. -/
structure Sofar (sentinel : Option Nat) (forest : Forest) (target : NodeId) (before : Outline)
    (log : List Placement) (now : Outline) (p : Progress)
    (queue : List ((ExternalNode × Nat) × NodeId)) : Prop where
  draws : p.work.table.Draws now
  unlimited : p.work.quota = Quota.unlimited
  grown : Grown before log now
  stored : target ∈ before.ids
  waiting : p.waiting = (List.range forest.length).filter (· ∉ log.map (·.entry.2))
  inserted : p.inserted = log.length
  idMap : ∀ q, p.idMap.get? q = (log.find? (·.entry.1.id = some q)).map (·.id)
  reached : ∀ e ∈ log, Reached sentinel forest e.entry.2
  nodup : (log.map (·.entry.2)).Nodup
  queued : ∀ e ∈ queue, e.1 ∈ forest.zipIdx
  families : ∀ m, (log.filter (·.parent = m)).map (·.entry) ++
      ((due (log.map (·.entry.2)) queue).filter (·.2 = m)).map (·.1) =
    family sentinel forest target p.idMap m

namespace Sofar

variable {sentinel : Option Nat} {forest : Forest} {target : NodeId} {before now : Outline}
  {log : List Placement} {p : Progress}

theorem mem_waiting_iff (h : Sofar sentinel forest target before log now p queue) {i : Nat} :
    i ∈ p.waiting ↔ i < forest.length ∧ i ∉ log.map (·.entry.2) := by
  rw [h.waiting, List.mem_filter, List.mem_range, decide_eq_true_eq]

/-- Every home is a node that is there. -/
theorem home_mem (h : Sofar sentinel forest target before log now p queue) {n : ExternalNode}
    {m : NodeId} (hm : home? sentinel target p.idMap n = some m) : m ∈ now.ids := by
  rw [h.grown.mem_ids_iff]
  rw [home?] at hm
  split at hm
  · cases hm
    exact .inl h.stored
  · obtain ⟨q, -, hq⟩ := Option.bind_eq_some_iff.mp hm
    rw [h.idMap, Option.map_eq_some_iff] at hq
    obtain ⟨e, he, rfl⟩ := hq
    exact .inr ⟨e, List.mem_of_find?_eq_some he, rfl⟩

theorem mem_family_of_mem_log (h : Sofar sentinel forest target before log now p queue)
    {e : Placement} (he : e ∈ log) : e.entry ∈ family sentinel forest target p.idMap e.parent := by
  rw [← h.families, List.mem_append]
  exact .inl (List.mem_map_of_mem (List.mem_filter.mpr ⟨he, by simp⟩))

theorem mem_family_of_mem_due (h : Sofar sentinel forest target before log now p queue)
    {e : (ExternalNode × Nat) × NodeId} (he : e ∈ due (log.map (·.entry.2)) queue) :
    e.1 ∈ family sentinel forest target p.idMap e.2 := by
  rw [← h.families, List.mem_append]
  exact .inr (List.mem_map_of_mem (List.mem_filter.mpr ⟨he, by simp⟩))

/-- The nodes that have a home are those that were stored or stand in the queue. -/
theorem isSome_home?_iff (h : Sofar sentinel forest target before log now p queue)
    {e : ExternalNode × Nat} (he : e ∈ forest.zipIdx) :
    (home? sentinel target p.idMap e.1).isSome = true ↔
      e.2 ∈ log.map (·.entry.2) ∨ e.2 ∈ queue.map (·.1.2) := by
  constructor
  · intro hsome
    obtain ⟨m, hm⟩ := Option.isSome_iff_exists.mp hsome
    have hfamily := mem_family.mpr ⟨he, hm⟩
    rw [← h.families, List.mem_append] at hfamily
    rcases hfamily with hlog | hdue
    · obtain ⟨e', he', rfl⟩ := List.mem_map.mp hlog
      exact .inl (List.mem_map_of_mem (List.mem_filter.mp he').1)
    · obtain ⟨e', he', rfl⟩ := List.mem_map.mp hdue
      exact .inr (List.mem_map_of_mem (mem_of_mem_due (List.mem_filter.mp he').1))
  · intro hmem
    have hentry : ∀ (e' : ExternalNode × Nat) (m : NodeId), e'.2 = e.2 →
        e' ∈ family sentinel forest target p.idMap m →
        (home? sentinel target p.idMap e.1).isSome = true := by
      intro e' m hpos hfamily
      obtain ⟨hzip, hm⟩ := mem_family.mp hfamily
      rw [← eq_of_mem_zipIdx hzip he hpos, hm]
      rfl
    by_cases hlog : e.2 ∈ log.map (·.entry.2)
    · obtain ⟨e', he', hpos⟩ := List.mem_map.mp hlog
      exact hentry e'.entry e'.parent hpos (h.mem_family_of_mem_log he')
    · obtain ⟨a, ha, hpos⟩ := List.mem_map.mp (hmem.resolve_left hlog)
      obtain ⟨e', he', hpos'⟩ := exists_mem_due ha (hpos ▸ hlog)
      exact hentry e'.1 e'.2 (hpos'.trans hpos) (h.mem_family_of_mem_due he')

/-- An import comes to whatever has a home. -/
theorem reached_of_home (h : Sofar sentinel forest target before log now p queue)
    {e : ExternalNode × Nat} (he : e ∈ forest.zipIdx)
    (hsome : (home? sentinel target p.idMap e.1).isSome = true) :
    Reached sentinel forest e.2 := by
  have hget := List.mem_zipIdx_iff_getElem?.mp he
  by_cases htop : isTop sentinel e.1 = true
  · exact .top hget htop
  · obtain ⟨m, hm⟩ := Option.isSome_iff_exists.mp hsome
    rw [home?, if_neg htop] at hm
    obtain ⟨q, hq, hid⟩ := Option.bind_eq_some_iff.mp hm
    rw [h.idMap, Option.map_eq_some_iff] at hid
    obtain ⟨a, ha, -⟩ := hid
    have hmem := List.mem_of_find?_eq_some ha
    have hzip := (mem_family.mp (h.mem_family_of_mem_log hmem)).1
    exact .under (h.reached a hmem) (List.mem_zipIdx_iff_getElem?.mp hzip)
      (by simpa using List.find?_some ha) hget (by simpa using htop) hq

/-- An entry whose position was visited is passed over. -/
theorem pass {e : (ExternalNode × Nat) × NodeId}
    (h : Sofar sentinel forest target before log now p (e :: queue)) (he : e.1.2 ∉ p.waiting) :
    Sofar sentinel forest target before log now p queue := by
  have hget := List.mem_zipIdx_iff_getElem?.mp (h.queued e List.mem_cons_self)
  have hseen : e.1.2 ∈ log.map (·.entry.2) := by
    by_contra hnot
    exact he (h.mem_waiting_iff.mpr ⟨(List.getElem?_eq_some_iff.mp hget).1, hnot⟩)
  have hfamilies := h.families
  rw [due, if_pos hseen] at hfamilies
  exact { h with
    queued := fun a ha => h.queued a (List.mem_cons_of_mem _ ha)
    families := hfamilies }

/-- A stored node brings along the nodes that refer to it, of which those come into the queue that
had no home: they are the new family. -/
theorem family_note (h : Sofar sentinel forest target before log now p queue) (id : Option Nat)
    {seen : List Nat}
    (hseen : ∀ i, i ∈ seen ↔ i ∈ log.map (·.entry.2) ∨ i ∈ queue.map (·.1.2)) (m : NodeId) :
    family sentinel forest target (note p.idMap id ⟨now.nextId⟩) m =
      family sentinel forest target p.idMap m ++
        ((due seen ((nodesUnder sentinel forest id).map (·, ⟨now.nextId⟩))).filter
          (·.2 = m)).map (·.1) := by
  have hhome : ∀ e ∈ forest.zipIdx, e.2 ∉ seen ↔ home? sentinel target p.idMap e.1 = none := by
    intro e he
    rw [hseen, ← h.isSome_home?_iff he]
    simp
  -- The identity given out next was nobody's home so far.
  have hfresh : ∀ n, home? sentinel target p.idMap n ≠ some ⟨now.nextId⟩ := fun n hn =>
    Nat.lt_irrefl _ (h.draws.fresh _ (h.home_mem hn))
  rw [due_under (nodup_nodesUnder sentinel forest id)]
  by_cases hm : (⟨now.nextId⟩ : NodeId) = m
  · subst hm
    have hempty : family sentinel forest target p.idMap ⟨now.nextId⟩ = [] := by
      apply List.filter_eq_nil_iff.mpr
      intro e _
      simpa using hfresh e.1
    rw [hempty, List.nil_append, if_pos rfl]
    simp only [family, nodesUnder, List.filter_filter, home?_note]
    apply List.filter_congr
    intro e he
    have hiff := hhome e he
    have hne := hfresh e.1
    cases hcase : home? sentinel target p.idMap e.1 with
    | none =>
      rw [Bool.eq_iff_iff]
      simp [hiff.mpr hcase, and_assoc]
    | some x =>
      have hmem : e.2 ∈ seen := by
        by_contra hnot
        simp [hiff.mp hnot] at hcase
      rw [hcase] at hne
      simp [hmem, hne]
  · rw [if_neg hm, List.append_nil]
    apply List.filter_congr
    intro e _
    rw [home?_note]
    cases hcase : home? sentinel target p.idMap e.1 with
    | none => simp [hm]
    | some x => simp

private theorem due_cons (h : Sofar sentinel forest target before log now p queue)
    {e : (ExternalNode × Nat) × NodeId} (he : e.1.2 ∈ p.waiting)
    (rest : List ((ExternalNode × Nat) × NodeId)) :
    due (log.map (·.entry.2)) (e :: rest) = e :: due (e.1.2 :: log.map (·.entry.2)) rest := by
  rw [due, if_neg (h.mem_waiting_iff.mp he).2]

/-- Under a node that is there, the next node is stored without fail. -/
theorem exists_insertUnder (h : Sofar sentinel forest target before log now p queue)
    {parent : NodeId} (hparent : parent ∈ now.ids) (attributes : Attributes) :
    ∃ r w, p.work.insertUnder attributes (some parent) = .ok (r, w) ∧ r.id = ⟨now.nextId⟩ ∧
      w.table.Draws (now.place attributes parent) ∧ w.quota = Quota.unlimited := by
  have hmatches := Work.insertUnder_matches h.draws attributes (some parent)
  rw [Outline.insert, if_pos hparent] at hmatches
  obtain ⟨⟨r, w⟩, hok, ⟨-, hitem⟩, hdraws, hwilling⟩ := Work.Does.exists_ok hmatches h.unlimited
  exact ⟨r, w, hok, congrArg Item.id hitem, hdraws, hwilling h.unlimited⟩

/-- One entry goes from the queue to the log, and the new family joins the queue behind all that
stands there, so that none of it is due before. -/
theorem families_store {e : (ExternalNode × Nat) × NodeId}
    (h : Sofar sentinel forest target before log now p (e :: queue))
    (hdue : due (log.map (·.entry.2)) (e :: queue) =
      e :: due (e.1.2 :: log.map (·.entry.2)) queue) (m : NodeId) :
    ((log ++ [placed e ⟨now.nextId⟩]).filter (·.parent = m)).map (·.entry) ++
        ((due ((log ++ [placed e ⟨now.nextId⟩]).map (·.entry.2))
          (queue ++ (nodesUnder sentinel forest e.1.1.id).map (·, ⟨now.nextId⟩))).filter
            (·.2 = m)).map (·.1) =
      family sentinel forest target (note p.idMap e.1.1.id ⟨now.nextId⟩) m := by
  have hpositions : (log ++ [placed e ⟨now.nextId⟩]).map (·.entry.2) =
      log.map (·.entry.2) ++ [e.1.2] := List.map_append
  have hseen : due ((log ++ [placed e ⟨now.nextId⟩]).map (·.entry.2)) queue =
      due (e.1.2 :: log.map (·.entry.2)) queue := by
    apply due_congr
    intro j
    rw [hpositions, List.mem_append, List.mem_singleton, List.mem_cons, or_comm]
  have hcovered : ∀ j, j ∈ queue.map (·.1.2) ++
      (log ++ [placed e ⟨now.nextId⟩]).map (·.entry.2) ↔
        j ∈ log.map (·.entry.2) ∨ j ∈ (e :: queue).map (·.1.2) := by
    intro j
    rw [hpositions, List.map_cons, List.mem_append, List.mem_append, List.mem_singleton,
      List.mem_cons]
    tauto
  rw [h.family_note e.1.1.id hcovered m, ← h.families, hdue, due_append, hseen, List.filter_append,
    List.filter_append, List.map_append, List.map_append, List.filter_cons]
  by_cases hm : e.2 = m
  · simp [hm, placed]
  · simp [hm, placed]

/-- A position that was not visited is stored as a last child of the node it stands under, and the
nodes that refer to it join the queue. -/
theorem store {n : ExternalNode} {i : Nat} {parent : NodeId}
    (h : Sofar sentinel forest target before log now p (((n, i), parent) :: queue))
    (hi : i ∈ p.waiting) :
    ∃ r w, p.work.insertUnder n.attributes (some parent) = .ok (r, w) ∧ r.id = ⟨now.nextId⟩ ∧
      Sofar sentinel forest target before (log ++ [placed ((n, i), parent) r.id])
        (now.place n.attributes parent)
        ⟨w, p.waiting.erase i, p.inserted + 1, note p.idMap n.id r.id⟩
        (queue ++ (nodesUnder sentinel forest n.id).map (·, r.id)) := by
  have hdue : due _ (((n, i), parent) :: queue) = _ := h.due_cons hi queue
  obtain ⟨hzip, hhome⟩ := mem_family.mp (h.mem_family_of_mem_due (hdue ▸ List.mem_cons_self))
  have hparent := h.home_mem hhome
  obtain ⟨r, w, hok, hid, hdraws, hunlimited⟩ := h.exists_insertUnder hparent n.attributes
  have hpositions : (log ++ [placed ((n, i), parent) ⟨now.nextId⟩]).map (·.entry.2) =
      log.map (·.entry.2) ++ [i] := List.map_append
  refine ⟨r, w, hok, hid, ?_⟩
  rw [hid]
  exact {
    draws := hdraws
    unlimited := hunlimited
    grown := h.grown.place h.draws.nodup hparent (n, i)
    stored := h.stored
    waiting := by
      rw [h.waiting, List.Nodup.erase_eq_filter (List.nodup_range.filter _), List.filter_filter,
        hpositions]
      apply List.filter_congr
      intro j _
      rw [Bool.eq_iff_iff]
      simp [and_comm]
    inserted := by rw [h.inserted, List.length_append, List.length_singleton]
    idMap := by
      intro q
      rw [note_get?, h.idMap, List.find?_append, Option.map_or]
      by_cases hq : n.id = some q
      · simp [hq, placed]
      · simp [hq, placed]
    reached := by
      intro a ha
      rcases List.mem_append.mp ha with ha | ha
      · exact h.reached a ha
      · cases List.mem_singleton.mp ha
        exact h.reached_of_home hzip (Option.isSome_iff_exists.mpr ⟨parent, hhome⟩)
    nodup := by
      rw [hpositions, List.nodup_append]
      refine ⟨h.nodup, List.nodup_singleton i, ?_⟩
      rintro j hj _ hi' rfl
      exact (h.mem_waiting_iff.mp hi).2 (List.mem_singleton.mp hi' ▸ hj)
    queued := by
      intro a ha
      rcases List.mem_append.mp ha with ha | ha
      · exact h.queued a (List.mem_cons_of_mem _ ha)
      · obtain ⟨b, hb, rfl⟩ := List.mem_map.mp ha
        exact (List.mem_filter.mp hb).1
    families := h.families_store hdue }

end Sofar

/-- What a traversal keeps: it goes on to hold if an entry of the queue is passed over, and if one
is stored under the next identity. -/
structure Kept (sentinel : Option Nat) (forest : Forest)
    (inv : List Placement → Outline → List ((ExternalNode × Nat) × NodeId) → Prop) : Prop where
  pass : ∀ {log now e queue}, inv log now (e :: queue) → inv log now queue
  store : ∀ {log now n i parent queue}, inv log now (((n, i), parent) :: queue) →
    inv (log ++ [placed ((n, i), parent) ⟨now.nextId⟩]) (now.place n.attributes parent)
      (queue ++ (nodesUnder sentinel forest n.id).map (·, ⟨now.nextId⟩))

/-- A queue is worked through to the end, and what is kept holds there. -/
theorem exists_run {sentinel : Option Nat} {forest : Forest} {target : NodeId}
    {before now : Outline} {log : List Placement} {p : Progress}
    {queue : List ((ExternalNode × Nat) × NodeId)}
    {inv : List Placement → Outline → List ((ExternalNode × Nat) × NodeId) → Prop}
    (hkept : Kept sentinel forest inv) (h : Sofar sentinel forest target before log now p queue)
    (hinv : inv log now queue) :
    ∃ log' now' p', run sentinel forest p queue = .ok p' ∧
      Sofar sentinel forest target before log' now' p' [] ∧ inv log' now' [] := by
  fun_induction run sentinel forest p queue generalizing log now with
  | case1 p => exact ⟨log, now, p, rfl, h, hinv⟩
  | case2 p n i parent queue hi hlt e he =>
    obtain ⟨r, w, hok, -⟩ := h.store hi
    cases hok.symm.trans he
  | case3 p n i parent queue hi hlt r w hw ih =>
    obtain ⟨r', w', hok, hid, hnext⟩ := h.store hi
    cases hok.symm.trans hw
    have hstored := hkept.store hinv
    rw [← hid] at hstored
    exact ih hnext hstored
  | case4 p n i parent queue hi ih => exact ih (h.pass hi) (hkept.pass hinv)

/-- Before the first step the queue holds the top of the forest. -/
theorem sofar_start {w : Work} {before : Outline} (sentinel : Option Nat) (forest : Forest)
    {target : NodeId} (hdraws : w.table.Draws before) (hq : w.quota = Quota.unlimited)
    (htarget : target ∈ before.ids) :
    Sofar sentinel forest target before [] before ⟨w, List.range forest.length, 0, Dict.empty⟩
      ((topNodes sentinel forest).map (·, target)) where
  draws := hdraws
  unlimited := hq
  grown := Grown.refl before
  stored := htarget
  waiting := by simp
  inserted := rfl
  idMap := fun _ => rfl
  reached := by simp
  nodup := List.nodup_nil
  queued := by
    simp only [topNodes, List.mem_map, List.mem_filter]
    rintro _ ⟨e, he, rfl⟩
    exact he.1
  families := by
    intro m
    rw [due_under (nodup_topNodes sentinel forest)]
    have hhome : ∀ n, home? sentinel target Dict.empty n =
        if isTop sentinel n then some target else none := by
      intro n
      rw [home?]
      cases n.parent <;> rfl
    simp only [family, hhome]
    by_cases hm : target = m
    · simp [hm, topNodes]
    · simp [hm]

end Import

end FlatTree
