import FlatTree.Proofs.Levels
import FlatTree.Proofs.Strictness

/-!
# Rearranged forests

What an import builds does not depend on what it leaves out, nor on the order in which a forest
lists nodes that do not belong together. Two forests that differ in nothing else are imported step
by step alike: the queues hold the same nodes, at other positions, and each node is waiting in both
runs or in none.
-/

namespace FlatTree

namespace Import

/-- Two nodes belong together if both stand at the top, or below it both refer to one external
identity. -/
def Together (sentinel : Option Nat) (n m : ExternalNode) : Prop :=
  isTop sentinel n = isTop sentinel m ∧ (isTop sentinel n = true ∨ n.parent = m.parent)

instance (sentinel : Option Nat) (n m : ExternalNode) : Decidable (Together sentinel n m) :=
  inferInstanceAs (Decidable (_ ∧ _))

/-- The nodes of a forest with their positions in it, listed in another order, and without some of
those that are spare. Nodes that belong together keep their order. -/
structure Rearranged (sentinel : Option Nat) (spare : List Nat) (forest : Forest)
    (moved : List (ExternalNode × Nat)) : Prop where
  nodup : (moved.map (·.2)).Nodup
  taken : ∀ e ∈ moved, e ∈ forest.zipIdx
  omitted : ∀ e ∈ forest.zipIdx, e ∉ moved → e.2 ∈ spare
  order : moved.Pairwise fun a b => Together sentinel a.1 b.1 → a.2 < b.2

/-- A node with its positions in the two forests. -/
structure Twin where
  node : ExternalNode
  first : Nat
  second : Nat

def Twin.before (t : Twin) : ExternalNode × Nat :=
  (t.node, t.first)

def Twin.after (t : Twin) : ExternalNode × Nat :=
  (t.node, t.second)

def twins (moved : List (ExternalNode × Nat)) : List Twin :=
  moved.zipIdx.map fun e => ⟨e.1.1, e.1.2, e.2⟩

variable {sentinel : Option Nat} {spare : List Nat} {forest : Forest}
  {moved : List (ExternalNode × Nat)}

theorem map_before_twins (moved : List (ExternalNode × Nat)) :
    (twins moved).map Twin.before = moved := by
  rw [twins, List.map_map]
  exact List.zipIdx_map_fst 0 moved

theorem map_after_twins (moved : List (ExternalNode × Nat)) :
    (twins moved).map Twin.after = (moved.map (·.1)).zipIdx := by
  rw [twins, List.map_map, List.zipIdx_map]
  rfl

private theorem second_lt {t : Twin} (ht : t ∈ twins moved) : t.second < moved.length := by
  have hmem := List.mem_map_of_mem (f := Twin.after) ht
  rw [map_after_twins] at hmem
  have hlt := (List.getElem?_eq_some_iff.mp (List.mem_zipIdx_iff_getElem?.mp hmem)).1
  rwa [List.length_map] at hlt

namespace Rearranged

theorem before_mem (h : Rearranged sentinel spare forest moved) {t : Twin} (ht : t ∈ twins moved) :
    t.before ∈ forest.zipIdx := by
  refine h.taken _ ?_
  have hmem := List.mem_map_of_mem (f := Twin.before) ht
  rwa [map_before_twins] at hmem

/-- Twins are told apart by either position. -/
theorem first_eq_iff (h : Rearranged sentinel spare forest moved) {t u : Twin}
    (ht : t ∈ twins moved) (hu : u ∈ twins moved) : t.first = u.first ↔ t.second = u.second := by
  have hfirst : ((twins moved).map Twin.first).Nodup := by
    have hnodup := h.nodup
    rw [← map_before_twins moved, List.map_map] at hnodup
    exact hnodup
  have hsecond : ((twins moved).map Twin.second).Nodup := by
    have hmap : (twins moved).map Twin.second = ((twins moved).map Twin.after).map (·.2) := by
      rw [List.map_map]
      rfl
    rw [hmap, map_after_twins, List.zipIdx_map_snd]
    exact List.nodup_range'
  constructor
  · intro heq
    rw [List.inj_on_of_nodup_map hfirst ht hu heq]
  · intro heq
    rw [List.inj_on_of_nodup_map hsecond ht hu heq]

variable {p : ExternalNode → Bool}

/-- Nodes that belong together stand in both forests in one order, if none of them is left out. -/
theorem map_before_filter (h : Rearranged sentinel spare forest moved)
    (hp : ∀ n m, p n = true → p m = true → Together sentinel n m)
    (hall : ∀ e ∈ forest.zipIdx, p e.1 = true → e ∈ moved) :
    ((twins moved).filter (p ·.node)).map Twin.before = forest.zipIdx.filter (p ·.1) := by
  have hfilter : ((twins moved).filter (p ·.node)).map Twin.before = moved.filter (p ·.1) := by
    conv_rhs => rw [← map_before_twins moved, List.filter_map]
    rfl
  have hascending : (moved.filter (p ·.1)).Pairwise fun a b => a.2 < b.2 :=
    (h.order.filter _).imp_of_mem fun ha hb hab =>
      hab (hp _ _ (List.mem_filter.mp ha).2 (List.mem_filter.mp hb).2)
  rw [hfilter]
  refine eq_of_ascending hascending ((pairwise_positions forest).filter _) fun e => ?_
  rw [List.mem_filter, List.mem_filter]
  exact ⟨fun he => ⟨h.taken e he.1, he.2⟩, fun he => ⟨hall e he.1 he.2, he.2⟩⟩

private theorem map_after_filter (moved : List (ExternalNode × Nat)) (p : ExternalNode → Bool) :
    ((twins moved).filter (p ·.node)).map Twin.after =
      (moved.map (·.1)).zipIdx.filter (p ·.1) := by
  rw [← map_after_twins, List.filter_map]
  rfl

end Rearranged

/-! ## Two runs -/

/-- The nodes that go under the target belong together. -/
theorem together_of_isTop {n m : ExternalNode} (hn : isTop sentinel n = true)
    (hm : isTop sentinel m = true) : Together sentinel n m :=
  ⟨hn.trans hm.symm, .inl hn⟩

/-- Whether a node goes under one with an external identity. -/
def refers (sentinel : Option Nat) (id : Option Nat) (n : ExternalNode) : Bool :=
  id.isSome && !isTop sentinel n && n.parent == id

theorem refers_iff {id : Option Nat} {n : ExternalNode} : refers sentinel id n = true ↔
    ∃ q, id = some q ∧ isTop sentinel n = false ∧ n.parent = some q := by
  cases id <;> simp [refers]

private theorem together_of_refers {id : Option Nat} {n m : ExternalNode}
    (hn : refers sentinel id n = true) (hm : refers sentinel id m = true) :
    Together sentinel n m := by
  obtain ⟨q, rfl, htop, hparent⟩ := refers_iff.mp hn
  obtain ⟨q', heq, htop', hparent'⟩ := refers_iff.mp hm
  obtain rfl := Option.some.inj heq
  exact ⟨htop.trans htop'.symm, .inr (hparent.trans hparent'.symm)⟩

/-- Two runs have done the same work, and the same nodes are still waiting. -/
structure InStep (moved : List (ExternalNode × Nat)) (p p' : Progress) : Prop where
  work : p'.work = p.work
  inserted : p'.inserted = p.inserted
  idMap : p'.idMap = p.idMap
  nodup : p.waiting.Nodup
  nodup' : p'.waiting.Nodup
  waiting : ∀ t ∈ twins moved, t.first ∈ p.waiting ↔ t.second ∈ p'.waiting

/-- The two runs store one node. -/
theorem InStep.store {p p' : Progress} (h : InStep moved p p')
    (hm : Rearranged sentinel spare forest moved) {t : Twin} (ht : t ∈ twins moved) (w : Work)
    (id : NodeId) :
    InStep moved ⟨w, p.waiting.erase t.first, p.inserted + 1, note p.idMap t.node.id id⟩
      ⟨w, p'.waiting.erase t.second, p'.inserted + 1, note p'.idMap t.node.id id⟩ where
  work := rfl
  inserted := by rw [h.inserted]
  idMap := by rw [h.idMap]
  nodup := h.nodup.erase _
  nodup' := h.nodup'.erase _
  waiting := by
    intro u hu
    rw [h.nodup.mem_erase_iff, h.nodup'.mem_erase_iff, h.waiting u hu, Ne, Ne,
      hm.first_eq_iff hu ht]

/-- A queue of twins, as the first run has it and as the second. -/
def beforeQueue (queue : List (Twin × NodeId)) : List ((ExternalNode × Nat) × NodeId) :=
  queue.map fun t => (t.1.before, t.2)

def afterQueue (queue : List (Twin × NodeId)) : List ((ExternalNode × Nat) × NodeId) :=
  queue.map fun t => (t.1.after, t.2)

private theorem beforeQueue_append (queue queue' : List (Twin × NodeId)) :
    beforeQueue (queue ++ queue') = beforeQueue queue ++ beforeQueue queue' :=
  List.map_append

private theorem afterQueue_append (queue queue' : List (Twin × NodeId)) :
    afterQueue (queue ++ queue') = afterQueue queue ++ afterQueue queue' :=
  List.map_append

/-- Twins of one kind that all stand under one node. -/
def twinsUnder (moved : List (ExternalNode × Nat)) (p : ExternalNode → Bool) (parent : NodeId) :
    List (Twin × NodeId) :=
  ((twins moved).filter (p ·.node)).map (·, parent)

private theorem afterQueue_twinsUnder (p : ExternalNode → Bool) (parent : NodeId) :
    afterQueue (twinsUnder moved p parent) =
      ((moved.map (·.1)).zipIdx.filter (p ·.1)).map (·, parent) := by
  rw [← Rearranged.map_after_filter, afterQueue, twinsUnder, List.map_map, List.map_map]
  rfl

private theorem beforeQueue_twinsUnder (h : Rearranged sentinel spare forest moved)
    {p : ExternalNode → Bool} (hp : ∀ n m, p n = true → p m = true → Together sentinel n m)
    (hall : ∀ e ∈ forest.zipIdx, p e.1 = true → e ∈ moved) (parent : NodeId) :
    beforeQueue (twinsUnder moved p parent) =
      (forest.zipIdx.filter (p ·.1)).map (·, parent) := by
  rw [← h.map_before_filter hp hall, beforeQueue, twinsUnder, List.map_map, List.map_map]
  rfl

/-- What the first run does, the second does with the twins: no node that a run comes to is left out
of the second forest. -/
theorem exists_run_inStep (hm : Rearranged sentinel spare forest moved)
    (hall : ∀ e ∈ forest.zipIdx, Reached sentinel forest e.2 → e ∈ moved)
    {p p' q : Progress} (h : InStep moved p p') {queue : List (Twin × NodeId)}
    (hqueue : ∀ t ∈ queue, t.1 ∈ twins moved ∧ Reached sentinel forest t.1.first)
    (hrun : run sentinel forest p (beforeQueue queue) = .ok q) :
    ∃ q', run sentinel (moved.map (·.1)) p' (afterQueue queue) = .ok q' ∧ InStep moved q q' := by
  generalize hentries : beforeQueue queue = entries at hrun
  fun_induction run sentinel forest p entries generalizing queue p' with
  | case1 p =>
    cases hrun
    obtain rfl := List.map_eq_nil_iff.mp hentries
    exact ⟨p', by rw [afterQueue, List.map_nil, run], h⟩
  | case2 p n i parent entries hi hlt e he => cases hrun
  | case3 p n i parent entries hi hlt r w hw ih =>
    obtain ⟨⟨t, x⟩, queue, rfl, hhead, hrest⟩ := List.map_eq_cons_iff.mp hentries
    cases hhead
    obtain ⟨⟨ht, hreached⟩, hqueue⟩ := List.forall_mem_cons.mp hqueue
    have hget := List.mem_zipIdx_iff_getElem?.mp (hm.before_mem ht)
    have hunder : ∀ e ∈ forest.zipIdx, refers sentinel t.node.id e.1 = true →
        Reached sentinel forest e.2 := by
      intro e he hrefers
      obtain ⟨k, hk, htop, hparent⟩ := refers_iff.mp hrefers
      exact .under hreached hget hk (List.mem_zipIdx_iff_getElem?.mp he) htop hparent
    have hfamily : beforeQueue (twinsUnder moved (refers sentinel t.node.id) r.id) =
        (nodesUnder sentinel forest t.node.id).map (·, r.id) :=
      beforeQueue_twinsUnder hm (fun _ _ => together_of_refers)
        (fun e he hrefers => hall e he (hunder e he hrefers)) r.id
    have hqueue' : ∀ u ∈ queue ++ twinsUnder moved (refers sentinel t.node.id) r.id,
        u.1 ∈ twins moved ∧ Reached sentinel forest u.1.first := by
      intro u hu
      rcases List.mem_append.mp hu with hu | hu
      · exact hqueue u hu
      · obtain ⟨v, hv, rfl⟩ := List.mem_map.mp hu
        obtain ⟨hv, hrefers⟩ := List.mem_filter.mp hv
        exact ⟨hv, hunder _ (hm.before_mem hv) hrefers⟩
    have hentries' : beforeQueue (queue ++ twinsUnder moved (refers sentinel t.node.id) r.id) =
        entries ++ (nodesUnder sentinel forest t.node.id).map (·, r.id) := by
      rw [beforeQueue_append, hfamily, ← hrest]
      rfl
    obtain ⟨q', hq', hstep⟩ := ih (h.store hm ht w r.id) hqueue' hentries' hrun
    have hw' : p'.work.insertUnder t.node.attributes (some x) = .ok (r, w) := by
      rw [h.work]
      exact hw
    refine ⟨q', ?_, hstep⟩
    rw [afterQueue_append, afterQueue_twinsUnder] at hq'
    rw [afterQueue, List.map_cons, Twin.after, run, dif_pos ((h.waiting t ht).mp hi), hw']
    exact hq'
  | case4 p n i parent entries hi ih =>
    obtain ⟨⟨t, x⟩, queue, rfl, hhead, hrest⟩ := List.map_eq_cons_iff.mp hentries
    cases hhead
    obtain ⟨⟨ht, -⟩, hqueue⟩ := List.forall_mem_cons.mp hqueue
    obtain ⟨q', hq', hstep⟩ := ih h hqueue hrest hrun
    refine ⟨q', ?_, hstep⟩
    rw [afterQueue, List.map_cons, Twin.after, run,
      dif_neg fun hwait => hi ((h.waiting t ht).mpr hwait)]
    exact hq'

/-- Before the first step all nodes of both forests are waiting. -/
theorem inStep_start (hm : Rearranged sentinel spare forest moved) (w : Work) :
    InStep moved ⟨w, List.range forest.length, 0, Dict.empty⟩
      ⟨w, List.range (moved.map (·.1)).length, 0, Dict.empty⟩ where
  work := rfl
  inserted := rfl
  idMap := rfl
  nodup := List.nodup_range
  nodup' := List.nodup_range
  waiting := by
    intro t ht
    have hget := List.mem_zipIdx_iff_getElem?.mp (hm.before_mem ht)
    have hfirst : t.first < forest.length := (List.getElem?_eq_some_iff.mp hget).1
    have hsecond : t.second < (moved.map (·.1)).length := by
      rw [List.length_map]
      exact second_lt ht
    exact iff_of_true (List.mem_range.mpr hfirst) (List.mem_range.mpr hsecond)

end Import

/-- An import of which nothing is left out of another forest than what it does not come to builds
the same from the other forest. -/
theorem Work.exists_importForest_rearranged {w w' : Work} {sentinel : Option Nat} {forest : Forest}
    {target : NodeId} {report : ImportReport}
    (h : w.importForest ⟨sentinel, .drop⟩ forest target = .ok (report, w'))
    (hdropped : ∀ i ∈ report.dropped, ¬Import.Reached sentinel forest i)
    {moved : List (ExternalNode × Nat)}
    (hm : Import.Rearranged sentinel report.dropped forest moved) :
    ∃ report', w.importForest ⟨sentinel, .drop⟩ (moved.map (·.1)) target = .ok (report', w') ∧
      report'.inserted = report.inserted ∧ report'.idMap = report.idMap := by
  have hall : ∀ e ∈ forest.zipIdx, Import.Reached sentinel forest e.2 → e ∈ moved := by
    intro e he hreached
    by_contra hnot
    exact hdropped _ (hm.omitted e he hnot) hreached
  have htop : ∀ e ∈ forest.zipIdx, Import.isTop sentinel e.1 = true →
      Import.Reached sentinel forest e.2 := fun e he htop =>
    .top (List.mem_zipIdx_iff_getElem?.mp he) htop
  let queue := Import.twinsUnder moved (Import.isTop sentinel) target
  have hbefore : Import.beforeQueue queue =
      (Import.topNodes sentinel forest).map (·, target) :=
    Import.beforeQueue_twinsUnder hm (fun _ _ => Import.together_of_isTop)
      (fun e he hp => hall e he (htop e he hp)) target
  have hafter : Import.afterQueue queue =
      (Import.topNodes sentinel (moved.map (·.1))).map (·, target) :=
    Import.afterQueue_twinsUnder _ target
  have hqueue : ∀ t ∈ queue, t.1 ∈ Import.twins moved ∧
      Import.Reached sentinel forest t.1.first := by
    intro t ht
    obtain ⟨u, hu, rfl⟩ := List.mem_map.mp ht
    obtain ⟨hu, hp⟩ := List.mem_filter.mp hu
    exact ⟨hu, htop _ (hm.before_mem hu) hp⟩
  obtain ⟨hr, p, hrun, -, rfl, rfl⟩ := importForest_eq_ok_iff.mp h
  obtain ⟨p', hrun', hstep⟩ := Import.exists_run_inStep hm hall (Import.inStep_start hm w) hqueue
    (hbefore ▸ hrun)
  rw [hafter] at hrun'
  refine ⟨⟨p'.inserted, p'.idMap, p'.waiting⟩, importForest_eq_ok_iff.mpr
    ⟨hr, p', hrun', Dangling.noConfusion, rfl, hstep.work.symm⟩, hstep.inserted, hstep.idMap⟩

/-- In a store whose table is sound, what a forest leaves does not change when it is rearranged. -/
theorem Store.exists_importForest_rearranged {s s' : Store} (h : s.table.Sound) {faults : Faults}
    {sentinel : Option Nat} {forest : Forest} {target : NodeId} {report : ImportReport}
    (hok : s.importForest faults ⟨sentinel, .drop⟩ forest target = (.ok report, s'))
    {moved : List (ExternalNode × Nat)}
    (hm : Import.Rearranged sentinel report.dropped forest moved) :
    ∃ report', s.importForest faults ⟨sentinel, .drop⟩ (moved.map (·.1)) target =
        (.ok report', s') ∧ report'.inserted = report.inserted ∧ report'.idMap = report.idMap := by
  obtain ⟨o, ho⟩ := Table.sound_iff_draws.mp h
  obtain ⟨w, hwork, hcommit⟩ := change_eq_ok_iff.mp hok
  have hfree := Work.importForest_free hwork
  obtain ⟨r, hr⟩ := Option.ne_none_iff_exists'.mp (Work.importForest_eq_ok_iff.mp hwork).1
  obtain ⟨hmem, rfl⟩ := Table.get?_eq_some_iff.mp hr
  have hdropped : ∀ i ∈ report.dropped, ¬Import.Reached sentinel forest i := by
    obtain ⟨log, now, p, hend, himport⟩ :=
      Work.exists_sofar (w := (Work.mk s.table faults.quota).free) ho rfl (ho.id_mem hmem)
        sentinel forest
    obtain ⟨rfl, -⟩ := Prod.mk.inj (Except.ok.inj (hfree.symm.trans himport))
    exact fun i hi => ((hend.grafted.dropped i).mp hi).2
  obtain ⟨report', hwork', hinserted, hidMap⟩ :=
    Work.exists_importForest_rearranged hwork hdropped hm
  exact ⟨report', change_eq_ok_iff.mpr ⟨w, hwork', hcommit⟩, hinserted, hidMap⟩

/-- Under the lenient policy an import into a sound table, under a node that is there, succeeds. A
forest that is the same but for what was left out, and for the order of nodes that do not belong
together, then leaves the same store, with the same count and the same identities; so too where the
store refuses writes, unless the import fails for it. And a table that commands lead to is sound if
its rows pass the check. -/
theorem imports_survive_rearrangement :
    (∀ s : Store, s.table.Sound → ∀ target, s.table.get? target ≠ none → ∀ sentinel forest,
      (∃ report s', s.importForest Faults.none ⟨sentinel, .drop⟩ forest target =
        (.ok report, s')) ∧
      ∀ faults report s',
        s.importForest faults ⟨sentinel, .drop⟩ forest target = (.ok report, s') →
          ∀ moved, Import.Rearranged sentinel report.dropped forest moved →
            ∃ report', s.importForest faults ⟨sentinel, .drop⟩ (moved.map (·.1)) target =
                (.ok report', s') ∧
              report'.inserted = report.inserted ∧ report'.idMap = report.idMap) ∧
    ∀ (first second : Settings) (commands : List (Bool × Session.Command)) (summary : Summary),
      let t := ((Session.start first second).finish commands).store.table
      Numbering.check t.rows = .ok summary → t.Sound := by
  refine ⟨fun s h target htarget sentinel forest => ⟨?_, fun faults report s' hok moved hm => ?_⟩,
    fun first second commands summary => Session.sound_of_check first second commands⟩
  · obtain ⟨o, ho⟩ := Table.sound_iff_draws.mp h
    obtain ⟨r, hr⟩ := Option.ne_none_iff_exists'.mp htarget
    obtain ⟨hmem, rfl⟩ := Table.get?_eq_some_iff.mp hr
    rcases Store.importForest_cases ho (ho.id_mem hmem) ⟨sentinel, .drop⟩ forest with
      ⟨e, hfail, -⟩ | ⟨report, t, after, place, hok, -⟩
    · cases hfail
    · exact ⟨report, _, hok⟩
  · exact Store.exists_importForest_rearranged h hok hm

/-- Under a lone root: an identity that repeats, two nodes that refer to it, of which one stands
before it, and two nodes that refer to each other. One of these goes, the other comes to the front,
and the nodes that refer to the repeated identity go to the end. And a root that one command
stored. -/
theorem imports_survive_rearrangement_lone_root :
    let s : Store := ⟨(Table.empty.insert Dict.empty Interval.root).2, ⟨1⟩⟩
    let forest : Forest := [.bare (some 6) (some 5), .bare (some 5) none, .bare (some 7) (some 8),
      .bare (some 5) (some 0), .bare (some 8) (some 7), .bare (some 4) (some 5)]
    let moved : List (ExternalNode × Nat) := [(.bare (some 8) (some 7), 4),
      (.bare (some 5) none, 1), (.bare (some 5) (some 0), 3), (.bare (some 6) (some 5), 0),
      (.bare (some 4) (some 5), 5)]
    let report : ImportReport := ⟨4, Dict.ofList [(4, ⟨5⟩), (5, ⟨2⟩), (6, ⟨4⟩)], [2, 4]⟩
    let s' := (s.importForest Faults.none ⟨some 0, .drop⟩ forest ⟨1⟩).2
    let t := ((Session.start .default .default).finish
      [(false, .insertRoot Dict.empty)]).store.table
    s.table.Sound ∧ s.table.get? ⟨1⟩ ≠ none ∧
      s.importForest Faults.none ⟨some 0, .drop⟩ forest ⟨1⟩ = (.ok report, s') ∧
      Import.Rearranged (some 0) report.dropped forest moved ∧
      (∃ report', s.importForest Faults.none ⟨some 0, .drop⟩ (moved.map (·.1)) ⟨1⟩ =
          (.ok report', s') ∧
        report'.inserted = report.inserted ∧ report'.idMap = report.idMap) ∧
      Numbering.check t.rows = .ok ⟨1, 1, 0⟩ ∧ t.Sound := by
  intro s forest moved report s' t
  have hsound : s.table.Sound :=
    Table.sound_iff_draws.mpr ⟨_, Table.Draws.empty.plant rfl Dict.empty⟩
  have htarget : s.table.get? ⟨1⟩ ≠ none := Option.some_ne_none _
  -- the two nodes under the identity 5 come into the queue twice
  obtain ⟨p, hrun, hp⟩ : ∃ p, Import.run (some 0) forest ⟨⟨s.table, Quota.unlimited⟩, List.range 6,
      0, Dict.empty⟩ ((Import.topNodes (some 0) forest).map (·, ⟨1⟩)) = .ok p ∧
      ⟨p.inserted, p.idMap, p.waiting⟩ = report :=
    ⟨_, (Import.run_store (by decide) rfl).trans <| (Import.run_store (by decide) rfl).trans <|
      (Import.run_store (by decide) rfl).trans <| (Import.run_store (by decide) rfl).trans <|
      (Import.run_pass (by decide)).trans <| (Import.run_pass (by decide)).trans Import.run_nil,
      rfl⟩
  have himport := Store.importForest_of_run htarget hrun
  rw [hp] at himport
  have hok : s.importForest Faults.none ⟨some 0, .drop⟩ forest ⟨1⟩ = (.ok report, s') :=
    Prod.ext (congrArg Prod.fst himport :) rfl
  have hm : Import.Rearranged (some 0) report.dropped forest moved := {
    nodup := by decide
    taken := by decide
    omitted := by decide
    order := by decide }
  exact ⟨hsound, htarget, hok, hm,
    (imports_survive_rearrangement.1 s hsound ⟨1⟩ htarget (some 0) forest).2 Faults.none report s'
      hok moved hm,
    Table.check_loneRoot, imports_survive_rearrangement.2 .default .default
      [(false, .insertRoot Dict.empty)] _ Table.check_loneRoot⟩

end FlatTree
