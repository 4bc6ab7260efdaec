import FlatTree.Proofs.Changes
import FlatTree.Hierarchy.Import
import Mathlib.Logic.Relation

/-!
# The loop of an import ends

The queue of an import may grow at every turn that stores a node, and a position may stand in it any
number of times, so that neither its length nor what is in it tells how long the loop goes on. But a
turn that makes the queue longer visits one more position, and all others make it shorter. What is
stored comes under a node that is there: a parent enters the queue when it has just been stored, and
nothing that is stored goes away. Nothing is asked of the rows, which need not be well numbered, nor
of the store, which may refuse any write.
-/

namespace FlatTree

/-! ## What an insertion leaves stored -/

namespace Table

theorem get?_ne_none_iff {t : Table} {id : NodeId} :
    t.get? id ≠ none ↔ id ∈ t.rows.map (·.id) := by
  rw [ne_eq, get?_eq_none_iff, not_not]

private theorem map_id_shift (t : Table) (side : Side) (s : Shift) :
    (t.shift side s).rows.map (·.id) = t.rows.map (·.id) := by
  rw [shift, List.map_map]
  rfl

/-- A row is put among the others or in the place of one with its identity. -/
theorem mem_map_id_putRow {r : Row} {rows : List Row} {id : NodeId} :
    id ∈ (putRow r rows).map (·.id) ↔ id = r.id ∨ id ∈ rows.map (·.id) := by
  induction rows with
  | nil => simp [putRow]
  | cons a rows ih =>
    rw [putRow]
    split
    · rw [List.map_cons, List.mem_cons]
    · split
      · next heq =>
        have hid : r.id = a.id := congrArg NodeId.mk heq
        simp [hid]
      · rw [List.map_cons, List.mem_cons, ih, List.map_cons, List.mem_cons]
        tauto

/-- A new last child is stored besides all that was. -/
theorem get?_placeUnder_ne_none_iff {t : Table} {attributes : Attributes} {parent : Row}
    {id : NodeId} : (t.placeUnder attributes parent).2.get? id ≠ none ↔
      id = (t.placeUnder attributes parent).1.id ∨ t.get? id ≠ none := by
  rw [get?_ne_none_iff, get?_ne_none_iff]
  refine mem_map_id_putRow.trans (or_congr_right ?_)
  rw [applyShift, map_id_shift, map_id_shift]

end Table

namespace Work

variable {w w' : Work} {attributes : Attributes} {parent : NodeId} {r : Row}

private theorem get?_ne_none_of_insertUnder
    (h : w.insertUnder attributes (some parent) = .ok (r, w'))
    {id : NodeId} (hid : id = r.id ∨ w.table.get? id ≠ none) : w'.table.get? id ≠ none := by
  rw [insertUnder] at h
  cases hparent : w.table.get? parent with
  | none =>
    rw [hparent] at h
    cases h
  | some p =>
    rw [hparent] at h
    have hdoes := does_placeUnder w attributes p
    rw [show w.placeUnder attributes p = .ok (r, w') from h] at hdoes
    obtain ⟨hr, htable, -⟩ := hdoes
    dsimp only at hr htable
    rw [htable, Table.get?_placeUnder_ne_none_iff, ← hr]
    exact hid

/-- Under a node that is stored, only the store can refuse a node. -/
theorem insertUnder_ne_invalidParent (h : w.table.get? parent ≠ none) (id : Option NodeId) :
    w.insertUnder attributes (some parent) ≠ .error (.invalidParent id) := by
  obtain ⟨p, hp⟩ := Option.ne_none_iff_exists'.mp h
  have hdoes := does_placeUnder w attributes p
  rw [insertUnder, hp]
  intro herror
  rw [show w.placeUnder attributes p = .error (.invalidParent id) from herror] at hdoes
  obtain ⟨-, message, hmessage⟩ := hdoes
  cases hmessage

end Work

namespace Import

/-! ## Turns -/

/-- The loop before a turn: what has been done so far, and the queue. -/
structure Loop where
  progress : Progress
  queue : List ((ExternalNode × Nat) × NodeId)

/-- Nothing has been done, and the top of the forest is to go under the target. -/
def Loop.start (sentinel : Option Nat) (forest : Forest) (w : Work) (target : NodeId) : Loop :=
  ⟨⟨w, List.range forest.length, 0, Dict.empty⟩, (topNodes sentinel forest).map (·, target)⟩

/-- The next turn hands the node `n` at the position `i` to be stored under `parent`. -/
def Loop.Hands (s : Loop) (n : ExternalNode) (i : Nat) (parent : NodeId) : Prop :=
  s.queue.head? = some ((n, i), parent) ∧ i ∈ s.progress.waiting

/-- One turn: the first entry of the queue is passed over if its position was visited; else its node
is stored, and the nodes that refer to it join the end of the queue. -/
inductive Turn (sentinel : Option Nat) (forest : Forest) : Loop → Loop → Prop
  | pass {p : Progress} {n : ExternalNode} {i : Nat} {parent : NodeId}
    {queue : List ((ExternalNode × Nat) × NodeId)} : i ∉ p.waiting →
    Turn sentinel forest ⟨p, ((n, i), parent) :: queue⟩ ⟨p, queue⟩
  | store {p : Progress} {n : ExternalNode} {i : Nat} {parent : NodeId}
    {queue : List ((ExternalNode × Nat) × NodeId)} {r : Row} {w : Work} : i ∈ p.waiting →
    p.work.insertUnder n.attributes (some parent) = .ok (r, w) →
    Turn sentinel forest ⟨p, ((n, i), parent) :: queue⟩
      ⟨⟨w, p.waiting.erase i, p.inserted + 1, note p.idMap n.id r.id⟩,
        queue ++ (nodesUnder sentinel forest n.id).map (·, r.id)⟩

/-- The loop ends here: the queue is empty, or the node that is handed over is refused. -/
inductive Ends : Loop → Except TreeError Progress → Prop
  | done (p : Progress) : Ends ⟨p, []⟩ (.ok p)
  | refused {p : Progress} {n : ExternalNode} {i : Nat} {parent : NodeId}
    {queue : List ((ExternalNode × Nat) × NodeId)} {e : TreeError} : i ∈ p.waiting →
    p.work.insertUnder n.attributes (some parent) = .error e →
    Ends ⟨p, ((n, i), parent) :: queue⟩ (.error e)

variable {sentinel : Option Nat} {forest : Forest} {s s' t : Loop} {w : Work} {target : NodeId}

theorem Turn.run_eq (h : Turn sentinel forest s s') :
    run sentinel forest s.progress s.queue = run sentinel forest s'.progress s'.queue := by
  cases h with
  | pass hi => exact run_pass hi
  | store hi hok => exact run_store hi hok

theorem Ends.run_eq {x : Except TreeError Progress} (h : Ends s x) (sentinel : Option Nat)
    (forest : Forest) : run sentinel forest s.progress s.queue = x := by
  cases h with
  | done p => exact run_nil
  | refused hi herror => exact run_refused hi herror

/-- A loop that has not ended has a next turn. -/
theorem exists_turn_or_ends (sentinel : Option Nat) (forest : Forest) (s : Loop) :
    (∃ s', Turn sentinel forest s s') ∨ ∃ x, Ends s x := by
  obtain ⟨p, queue⟩ := s
  cases queue with
  | nil => exact .inr ⟨_, .done p⟩
  | cons e queue =>
    obtain ⟨⟨n, i⟩, parent⟩ := e
    by_cases hi : i ∈ p.waiting
    · cases hinsert : p.work.insertUnder n.attributes (some parent) with
      | error e => exact .inr ⟨_, .refused hi hinsert⟩
      | ok a => exact .inl ⟨_, .store hi hinsert⟩
    · exact .inl ⟨_, .pass hi⟩

/-! ## Termination -/

/-- How many positions are still to be visited, and then how long the queue is. -/
def Loop.toDo (s : Loop) : Nat × Nat :=
  (s.progress.waiting.length, s.queue.length)

/-- A turn visits a position, or leaves all positions as they are and takes an entry off the
queue. -/
theorem Turn.toDo_lt (h : Turn sentinel forest s s') :
    Prod.Lex (· < ·) (· < ·) s'.toDo s.toDo := by
  cases h with
  | pass hi => exact .right _ (Nat.lt_succ_self _)
  | store hi hok =>
    refine .left _ _ ?_
    rw [List.length_erase_of_mem hi]
    exact Nat.sub_lt (List.length_pos_of_mem hi) Nat.one_pos

/-- From wherever it starts, the loop does not go on for ever. -/
theorem wellFounded_turn (sentinel : Option Nat) (forest : Forest) :
    WellFounded fun s' s => Turn sentinel forest s s' :=
  Subrelation.wf (fun h => h.toDo_lt)
    (InvImage.wf Loop.toDo (Prod.lex ⟨_, Nat.lt_wfRel.wf⟩ ⟨_, Nat.lt_wfRel.wf⟩).wf)

/-- Turn by turn the loop comes to an end, with the answer of the whole run. -/
theorem exists_ends (sentinel : Option Nat) (forest : Forest) (s : Loop) :
    ∃ t, Relation.ReflTransGen (Turn sentinel forest) s t ∧
      Ends t (run sentinel forest s.progress s.queue) := by
  induction s using (wellFounded_turn sentinel forest).induction with
  | _ s ih =>
    rcases exists_turn_or_ends sentinel forest s with ⟨s', hturn⟩ | ⟨x, hends⟩
    · obtain ⟨t, hreach, hends⟩ := ih s' hturn
      exact ⟨t, .head hturn hreach, hturn.run_eq ▸ hends⟩
    · exact ⟨s, .refl, hends.run_eq sentinel forest ▸ hends⟩

/-! ## Positions -/

theorem Turn.waiting_sublist (h : Turn sentinel forest s s') :
    s'.progress.waiting.Sublist s.progress.waiting := by
  cases h with
  | pass hi => exact .refl _
  | store hi hok => exact List.erase_sublist

/-- Positions that were visited stay so. -/
theorem waiting_sublist_of_turns (h : Relation.ReflTransGen (Turn sentinel forest) s t) :
    t.progress.waiting.Sublist s.progress.waiting := by
  induction h with
  | refl => exact .refl _
  | tail _ hturn ih => exact hturn.waiting_sublist.trans ih

/-- A position that is handed over is visited. -/
theorem Turn.notMem_waiting (h : Turn sentinel forest s s') (hn : s.progress.waiting.Nodup)
    {n : ExternalNode} {i : Nat} {parent : NodeId} (hands : s.Hands n i parent) :
    i ∉ s'.progress.waiting := by
  obtain ⟨hhead, hi⟩ := hands
  cases h with
  | pass hpass =>
    cases hhead
    exact absurd hi hpass
  | store _ hok =>
    cases hhead
    exact hn.not_mem_erase

/-! ## Parents -/

/-- Every entry of the queue is to go under a node that is stored. -/
def Loop.Housed (s : Loop) : Prop :=
  ∀ e ∈ s.queue, s.progress.work.table.get? e.2 ≠ none

private theorem housed_start (sentinel : Option Nat) (forest : Forest)
    (h : w.table.get? target ≠ none) : (Loop.start sentinel forest w target).Housed := by
  intro e he
  obtain ⟨top, -, rfl⟩ := List.mem_map.mp he
  exact h

theorem Turn.housed (h : Turn sentinel forest s s') (hs : s.Housed) : s'.Housed := by
  cases h with
  | pass hi => exact fun e he => hs e (List.mem_cons_of_mem _ he)
  | store hi hok =>
    intro e he
    refine Work.get?_ne_none_of_insertUnder hok ?_
    rcases List.mem_append.mp he with he | he
    · exact .inr (hs e (List.mem_cons_of_mem _ he))
    · obtain ⟨child, -, rfl⟩ := List.mem_map.mp he
      exact .inl rfl

theorem housed_of_turns (h : Relation.ReflTransGen (Turn sentinel forest) s t) (hs : s.Housed) :
    t.Housed := by
  induction h with
  | refl => exact hs
  | tail _ hturn ih => exact hturn.housed ih

theorem Loop.Housed.get?_of_hands (hs : s.Housed) {n : ExternalNode} {i : Nat} {parent : NodeId}
    (hands : s.Hands n i parent) : s.progress.work.table.get? parent ≠ none :=
  hs _ (List.mem_of_mem_head? hands.1)

theorem Loop.Housed.ne_invalidParent (hs : s.Housed) {x : Except TreeError Progress}
    (h : Ends s x) (id : Option NodeId) : x ≠ .error (.invalidParent id) := by
  cases h with
  | done p => exact fun h => nomatch h
  | refused hi herror =>
    rintro ⟨⟩
    exact Work.insertUnder_ne_invalidParent (hs _ List.mem_cons_self) id herror

/-! ## The loop of an import -/

private theorem run_ne_invalidParent (sentinel : Option Nat) (forest : Forest) (hs : s.Housed)
    (id : Option NodeId) :
    run sentinel forest s.progress s.queue ≠ .error (.invalidParent id) := by
  obtain ⟨t, hturns, hends⟩ := exists_ends sentinel forest s
  exact (housed_of_turns hturns hs).ne_invalidParent hends id

/-- For every store, forest, sentinel, policy and target, the loop of an import does not go on for
ever, and turn by turn it comes to the answer of the import's run. A position that was handed over
to be stored is not handed over again. And once the target is stored, every node that is handed over
comes under a node that is stored by then, so that no parent is ever missing. -/
theorem queue_runs_out (w : Work) (settings : ImportSettings) (forest : Forest)
    (target : NodeId) :
    let turn := Turn settings.sentinel forest
    let start := Loop.start settings.sentinel forest w target
    WellFounded (fun s' s => turn s s') ∧
    (∃ s, Relation.ReflTransGen turn start s ∧
      Ends s (run settings.sentinel forest start.progress start.queue)) ∧
    (∀ s s' t n i parent, Relation.ReflTransGen turn start s → s.Hands n i parent →
      turn s s' → Relation.ReflTransGen turn s' t → ∀ n' parent', ¬t.Hands n' i parent') ∧
    (w.table.get? target ≠ none →
      (∀ s n i parent, Relation.ReflTransGen turn start s → s.Hands n i parent →
        s.progress.work.table.get? parent ≠ none) ∧
      ∀ id, run settings.sentinel forest start.progress start.queue ≠
          .error (.invalidParent id) ∧
        w.importForest settings forest target ≠ .error (.invalidParent id)) := by
  intro turn start
  refine ⟨wellFounded_turn _ _, exists_ends _ _ start, ?_, fun htarget => ?_⟩
  · intro s s' t n i parent hturns hands hturn hturns' n' parent' hands'
    have hnodup := (List.nodup_range (n := forest.length)).sublist (waiting_sublist_of_turns hturns)
    have hi' := (waiting_sublist_of_turns hturns').subset hands'.2
    exact hturn.notMem_waiting hnodup hands hi'
  · have hstart := housed_start settings.sentinel forest htarget
    have hrun := run_ne_invalidParent settings.sentinel forest hstart
    refine ⟨fun s n i parent hturns hands => (housed_of_turns hturns hstart).get?_of_hands hands,
      fun id => ⟨hrun id, ?_⟩⟩
    obtain ⟨r, hr⟩ := Option.ne_none_iff_exists'.mp htarget
    rw [Work.importForest, hr]
    dsimp only
    split
    · next e he =>
      rintro ⟨⟩
      exact hrun id he
    · split <;> exact fun h => nomatch h

/-- Under a lone root, with a store that will refuse the third row: an identity that repeats, and
whose children come into the queue twice, a node that refers to itself, and two that refer to each
other. The first node is handed over at once, and its parent is there. -/
theorem queue_runs_out_lone_root :
    let w : Work := ⟨(Table.empty.insert Dict.empty Interval.root).2, ⟨some 2, none, none⟩⟩
    let forest : Forest := [.bare (some 6) (some 5), .bare (some 5) none, .bare (some 5) (some 0),
      .bare (some 4) (some 4), .bare (some 7) (some 8), .bare (some 8) (some 7)]
    let start := Loop.start (some 0) forest w ⟨1⟩
    w.table.get? ⟨1⟩ ≠ none ∧ start.Hands (.bare (some 5) none) 1 ⟨1⟩ ∧
      (∀ s n i parent, Relation.ReflTransGen (Turn (some 0) forest) start s →
        s.Hands n i parent → s.progress.work.table.get? parent ≠ none) ∧
      ∀ id, run (some 0) forest start.progress start.queue ≠ .error (.invalidParent id) := by
  intro w forest start
  have htarget : w.table.get? ⟨1⟩ ≠ none := by decide
  obtain ⟨-, -, -, hstored⟩ := queue_runs_out w ⟨some 0, .drop⟩ forest ⟨1⟩
  exact ⟨htarget, ⟨by decide, by decide⟩, (hstored htarget).1, fun id => ((hstored htarget).2 id).1⟩

end Import

end FlatTree
