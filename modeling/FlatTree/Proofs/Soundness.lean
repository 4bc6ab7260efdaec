import FlatTree.Proofs.Queries
import FlatTree.Proofs.Simulation
import FlatTree.Session

/-!
# Tables stay sound

A sound table is one whose rows pass the check and whose identities have all been given out. Every
change of a hierarchy keeps tables sound, and on a sound table nothing is ever called corrupt: the
root is one row, a node has one ancestor at most at each depth, and a deletion takes out as many
rows as it should.
-/

namespace FlatTree

def TreeError.Corrupt : TreeError → Prop
  | .corruptTree _ => True
  | _ => False

/-- A failure, if it is one, is not that the table is corrupt. -/
def Plain {α : Type} (x : Except TreeError α) : Prop :=
  ∀ e, x = .error e → ¬e.Corrupt

section Plain

variable {α β : Type}

theorem plain_ok (a : α) : Plain (.ok a : Except TreeError α) :=
  fun _ h => nomatch h

theorem plain_error {e : TreeError} (h : ¬e.Corrupt) : Plain (.error e : Except TreeError α) := by
  intro e' he
  cases he
  exact h

theorem Plain.bind {x : Except TreeError α} {f : α → Except TreeError β} (h : Plain x)
    (hf : ∀ a, x = .ok a → Plain (f a)) : Plain (x >>= f) := by
  cases x with
  | error e => exact plain_error (h e rfl)
  | ok a => exact hf a rfl

theorem Plain.map {x : Except TreeError α} (h : Plain x) (f : α → β) : Plain (x.map f) := by
  cases x with
  | error e => exact plain_error (h e rfl)
  | ok a => exact plain_ok _

end Plain

/-! ## Queries -/

namespace Table

variable {t : Table} {o : Outline}

theorem plain_require (t : Table) (id : NodeId) : Plain (t.require id) := by
  rw [require]
  cases t.get? id with
  | none => exact plain_error not_false
  | some r => exact plain_ok r

private theorem plain_childCount (t : Table) (id : NodeId) (directOnly : Bool) :
    Plain (t.childCount id directOnly) :=
  (plain_require t id).bind fun _ _ => plain_ok _

private theorem plain_annotate (t : Table) (directOnly : Bool) (nodes : List Node) :
    Plain (t.annotate directOnly nodes).2 := by
  induction nodes with
  | nil => exact plain_ok ()
  | cons n nodes ih =>
    have hn : Plain (t.annotateNode directOnly n) :=
      (plain_childCount t n.id directOnly).bind fun _ _ => plain_ok _
    rw [annotate]
    cases hcase : t.annotateNode directOnly n with
    | error e => exact plain_error (hn e hcase)
    | ok n' => exact ih

theorem plain_annotateAll (t : Table) (directOnly : Bool) (nodes : List Node) :
    Plain (t.annotateAll directOnly nodes) :=
  (plain_annotate t directOnly nodes).map _

theorem plain_childrenOfAnnotated (t : Table) (keys : List SortKey) (id : NodeId)
    (directOnly : Bool) (mode : Annotate) :
    Plain (t.childrenOfAnnotated keys id directOnly mode) := by
  have hchildren : Plain (t.childrenOf keys id directOnly) :=
    (plain_require t id).bind fun r _ => plain_ok _
  apply hchildren.bind
  intro rows _
  cases mode with
  | none => exact plain_ok _
  | direct => exact plain_annotateAll t true _
  | recursive => exact plain_annotateAll t false _
  | both => exact (plain_annotateAll t true _).bind fun nodes _ => plain_annotateAll t false nodes

theorem Draws.plain_root? (h : t.Draws o) : Plain t.root? := by
  rw [h.root?_eq]
  exact plain_ok _

theorem Draws.plain_requireRoot (h : t.Draws o) : Plain t.requireRoot := by
  apply h.plain_root?.bind
  intro r _
  cases r with
  | none => exact plain_error not_false
  | some r => exact plain_ok r

theorem Draws.plain_viewChildrenOf (h : t.Draws o) (keys : List SortKey) (parent : Option NodeId)
    (mode : Annotate) : Plain (t.viewChildrenOf keys parent mode) := by
  cases parent with
  | some id => exact (plain_childrenOfAnnotated t keys id true mode).bind fun _ _ => plain_ok _
  | none =>
    apply (h.plain_requireRoot.map _).bind
    intro id _
    exact (plain_childrenOfAnnotated t keys id true mode).bind fun _ _ => plain_ok _

theorem Draws.plain_parentOf (h : t.Draws o) (id : NodeId) (depth : Int) :
    Plain (t.parentOf id depth) := by
  apply (plain_require t id).bind
  intro r hr
  have hmem := (require_eq_ok_iff.mp hr).1
  cases ancestorDepth? r.interval.depth depth with
  | none => exact plain_error not_false
  | some d =>
    have hle := length_find_around_le h.rows hmem d
    dsimp only
    generalize t.find _ [] = rows at hle
    rcases rows with _ | ⟨a, _ | ⟨b, rows⟩⟩
    · exact plain_ok _
    · exact plain_ok _
    · simp at hle

theorem Sound.plain_verify (h : t.Sound) : Plain t.verify := by
  obtain ⟨o, ho⟩ := sound_iff_draws.mp h
  rw [verify_of_perm ho.rows]
  exact plain_ok _

end Table

/-! ## Changes -/

namespace Work

variable {α β : Type} {w : Work}

/-- A unit of work ends with a sound table, or fails and does not call the table corrupt. -/
def Keeps (x : Except TreeError (α × Work)) : Prop :=
  match x with
  | .ok p => p.2.table.Sound
  | .error e => ¬e.Corrupt

theorem Keeps.bind {x : Except TreeError (α × Work)} {f : α × Work → Except TreeError (β × Work)}
    (h : Keeps x) (hf : ∀ p, p.2.table.Sound → Keeps (f p)) : Keeps (x >>= f) := by
  cases x with
  | error e => exact h
  | ok p => exact hf p h

theorem keeps_of_matches {agree : Table → α → β → Prop} {x : Except TreeError (α × Work)}
    {spec : Except TreeError (β × Outline)} (h : w.Matches agree x spec) (hspec : Plain spec) :
    Keeps x := by
  cases spec with
  | error e =>
    have hx : x = .error e := h
    rw [hx]
    exact hspec e rfl
  | ok p =>
    have hdoes : w.Does x _ := h
    cases x with
    | ok p' => exact Table.sound_iff_draws.mpr ⟨_, hdoes.2.1⟩
    | error e =>
      obtain ⟨-, m, rfl⟩ := hdoes
      exact not_false

theorem keeps_insertUnder (h : w.table.Sound) (attributes : Attributes) (parent : Option NodeId) :
    Keeps (w.insertUnder attributes parent) := by
  obtain ⟨o, ho⟩ := Table.sound_iff_draws.mp h
  refine keeps_of_matches (insertUnder_matches ho attributes parent) ?_
  cases parent with
  | some id =>
    rw [Outline.insert]
    split
    · exact plain_ok _
    · exact plain_error not_false
  | none =>
    rw [Outline.insert]
    cases o.tree <;> exact plain_ok _

private theorem keeps_insertRoot (h : w.table.Sound) (attributes : Attributes) :
    Keeps (w.insertRoot attributes) := by
  obtain ⟨o, ho⟩ := Table.sound_iff_draws.mp h
  refine keeps_of_matches (insertRoot_matches ho attributes) ?_
  rw [Outline.insertRoot]
  cases o.tree with
  | none => exact plain_ok _
  | some t => exact plain_error not_false

theorem keeps_deleteNode (h : w.table.Sound) (id : NodeId) (withDescendants : Bool) :
    Keeps (w.deleteNode id withDescendants) := by
  obtain ⟨o, ho⟩ := Table.sound_iff_draws.mp h
  refine keeps_of_matches (deleteNode_matches ho id withDescendants) ?_
  rw [Outline.delete]
  cases o.grove.subtree? id with
  | none => exact plain_error not_false
  | some t =>
    dsimp only
    split
    · exact plain_error not_false
    · exact plain_ok _

private theorem keeps_save (h : w.table.Sound) (n : ExternalNode) : Keeps (w.save n) := by
  have hinsert : ∀ p : NodeId × Work, p.2.table.Sound →
      Keeps (p.2.insertUnder n.attributes (some p.1) >>= fun q =>
        pure (ExternalNode.ofChild p.1 q.1.toNode, q.2)) := fun p hp =>
    (keeps_insertUnder hp n.attributes (some p.1)).bind fun _ hq => hq
  rw [save]
  cases n.parent with
  | some id => exact hinsert (⟨id⟩, w) h
  | none =>
    have hroot : Keeps w.rootOrNew := by
      obtain ⟨o, ho⟩ := Table.sound_iff_draws.mp h
      rw [rootOrNew, ho.root?_eq]
      cases o.tree with
      | none => exact (keeps_insertRoot h Dict.empty).bind fun p hp => hp
      | some t => exact h
    exact hroot.bind hinsert

/-- An import is a row of insertions, each of which keeps the table sound. -/
theorem keeps_run (sentinel : Option Nat) (forest : Forest) (p : Import.Progress)
    (queue : List ((ExternalNode × Nat) × NodeId)) (h : p.work.table.Sound) :
    match Import.run sentinel forest p queue with
    | .ok p' => p'.work.table.Sound
    | .error e => ¬e.Corrupt := by
  fun_induction Import.run sentinel forest p queue with
  | case1 p => exact h
  | case2 p n i parent queue hi hlt e he =>
    have hkeeps := keeps_insertUnder h n.attributes (some parent)
    rwa [he] at hkeeps
  | case3 p n i parent queue hi hlt r w hw ih =>
    have hkeeps := keeps_insertUnder h n.attributes (some parent)
    rw [hw] at hkeeps
    exact ih hkeeps
  | case4 p n i parent queue hi ih => exact ih h

theorem keeps_importForest (h : w.table.Sound) (settings : ImportSettings) (forest : Forest)
    (target : NodeId) : Keeps (w.importForest settings forest target) := by
  rw [importForest]
  cases w.table.get? target with
  | none => exact not_false
  | some r =>
    dsimp only
    have hrun := keeps_run settings.sentinel forest
      ⟨w, List.range forest.length, 0, Dict.empty⟩
      ((Import.topNodes settings.sentinel forest).map (·, target)) h
    generalize Import.run settings.sentinel forest _ _ = outcome at hrun
    cases outcome with
    | error e => exact hrun
    | ok p =>
      dsimp only
      split
      · exact not_false
      · exact hrun

end Work

namespace Store

theorem table_of_commit {s s' : Store} {base : Version} {t : Table}
    (h : s.commit base t = .ok s') : s'.table = t := by
  rw [commit] at h
  split at h
  · cases h
    rfl
  · cases h

theorem table_slipIn (s : Store) (conflict : Bool) :
    (if conflict then s.slipIn else s).table = s.table := by
  cases conflict <;> rfl

/-- A unit of work that fails or is not committed leaves the table as it was. -/
theorem change_keeps {α : Type} {s : Store} (faults : Faults)
    (unit : Work → Except TreeError (α × Work)) (h : s.table.Sound)
    (hunit : Work.Keeps (unit ⟨s.table, faults.quota⟩)) :
    (s.change faults unit).2.table.Sound ∧ Plain (s.change faults unit).1 := by
  rw [change, write]
  cases hcase : unit ⟨s.table, faults.quota⟩ with
  | error e =>
    rw [hcase] at hunit
    exact ⟨h, plain_error hunit⟩
  | ok p =>
    rw [hcase] at hunit
    dsimp only
    cases hcommit : (if faults.conflict then s.slipIn else s).commit s.version p.2.table with
    | error e =>
      refine ⟨?_, plain_error not_false⟩
      rw [table_slipIn]
      exact h
    | ok s' =>
      refine ⟨?_, plain_ok _⟩
      rw [table_of_commit hcommit]
      exact hunit

private theorem plain_checkReferences (sentinel : Option Nat) (forest : Forest) :
    Plain (Import.checkReferences sentinel forest) := by
  rw [Import.checkReferences]
  cases Import.firstRepeated? [] (forest.filterMap (·.id)) with
  | some id => exact plain_error not_false
  | none =>
    dsimp only
    split
    · exact plain_error not_false
    · exact plain_ok _

theorem importForest_keeps {s : Store} (h : s.table.Sound) (faults : Faults)
    (settings : ImportSettings) (forest : Forest) (target : NodeId) :
    (s.importForest faults settings forest target).2.table.Sound ∧
      Plain (s.importForest faults settings forest target).1 := by
  have hchange := change_keeps faults (·.importForest settings forest target) h
    (Work.keeps_importForest h settings forest target)
  have hreferences := plain_checkReferences settings.sentinel forest
  rw [importForest]
  cases settings.dangling with
  | drop => exact hchange
  | fail =>
    cases hcase : Import.checkReferences settings.sentinel forest with
    | error e => exact ⟨h, plain_error (hreferences e hcase)⟩
    | ok u => exact hchange

end Store

/-! ## Sessions -/

namespace Session

/-- A command that goes through a hierarchy. The one other is a unit of work that writes rows. -/
def Command.Managed : Command → Prop
  | .transaction _ => False
  | _ => True

/-- The error of the hierarchy that a command ends with, or stops attaching counts at. -/
def complaint? : Except Failure Answer → Option TreeError
  | .error (.tree e) => some e
  | .ok (.annotated failure _) => failure
  | _ => none

/-- A command ended with a sound table and did not complain that it was corrupt. -/
def EndsWell (r : Except Failure Answer × Session) : Prop :=
  r.2.store.table.Sound ∧ ∀ e, complaint? r.1 = some e → ¬e.Corrupt

/-- The stores that commands lead to from the empty one, each under whatever settings, held nodes
and faults its session has. -/
inductive Reachable : Store → Prop
  | empty : Reachable Store.empty
  | run (s : Session) (useSecond : Bool) (c : Command) : Reachable s.store → c.Managed →
    Reachable (s.run useSecond c).2.store

variable {α : Type} {s : Session}

private theorem endsWell_error (h : s.store.table.Sound) (e : SettingsError) :
    EndsWell (.error (.settings e), s) :=
  ⟨h, fun _ he => nomatch he⟩

theorem endsWell_answered {answer : α → Answer} {r : Except TreeError α}
    (h : s.store.table.Sound) (hr : Plain r) (hanswer : ∀ a, complaint? (.ok (answer a)) = none) :
    EndsWell (s.answered answer r) := by
  refine ⟨h, fun e he => ?_⟩
  cases r with
  | error e' =>
    cases he
    exact hr e rfl
  | ok a => exact nomatch (hanswer a).symm.trans he

theorem endsWell_changed {answer : α → Answer} {r : Except TreeError α × Store}
    (hr : r.2.table.Sound ∧ Plain r.1) (hanswer : ∀ a, complaint? (.ok (answer a)) = none) :
    EndsWell (s.changed answer r) :=
  endsWell_answered (s := { s with store := r.2 }) hr.1 hr.2 hanswer

theorem resolve_error {order : OrderSpec} {e : Failure} (h : order.resolve = .error e) :
    ∃ e', e = .settings e' := by
  cases order with
  | keys ks => cases h
  | text spec =>
    rw [OrderSpec.resolve] at h
    cases hcase : Settings.orderOfText spec with
    | error e' =>
      rw [hcase] at h
      cases h
      exact ⟨e', rfl⟩
    | ok ks =>
      rw [hcase] at h
      cases h

private theorem endsWell_ordered {answer : α → Answer} {query : List SortKey → Except TreeError α}
    (settings : Settings) (order : OrderSpec) (h : s.store.table.Sound)
    (hquery : ∀ keys, Plain (query keys)) (hanswer : ∀ a, complaint? (.ok (answer a)) = none) :
    EndsWell (s.ordered settings order answer query) := by
  rw [ordered]
  cases horder : order.resolve with
  | error e =>
    obtain ⟨e', rfl⟩ := resolve_error horder
    exact endsWell_error h e'
  | ok keys => exact endsWell_answered h (hquery _) hanswer

private theorem endsWell_read (h : s.store.table.Sound) (action : ReadAction) :
    EndsWell ((readAction s.store.table action).map .action, s) := by
  refine ⟨h, fun e he => ?_⟩
  cases action with
  | get id => cases he
  | count f => cases he
  | fail message =>
    cases he
    exact not_false
  | find f order idsOnly =>
    rw [readAction] at he
    cases horder : order.resolve with
    | error e' =>
      obtain ⟨e'', rfl⟩ := resolve_error horder
      rw [horder] at he
      cases he
    | ok keys =>
      rw [horder] at he
      cases he

private theorem plain_fetch (t : Table) (ids : List NodeId) : Plain (fetch t ids).2 := by
  induction ids with
  | nil => exact plain_ok ()
  | cons id ids ih =>
    rw [fetch]
    cases hcase : t.require id with
    | error e => exact plain_error (Table.plain_require t id e hcase)
    | ok r => exact ih

/-- Whatever command goes through a hierarchy, it ends well on a sound table. -/
theorem run_endsWell (h : s.store.table.Sound) (useSecond : Bool) {c : Command}
    (hc : c.Managed) : EndsWell (s.run useSecond c) := by
  obtain ⟨o, ho⟩ := Table.sound_iff_draws.mp h
  cases c with
  | insert parent attributes =>
    exact endsWell_changed (Store.change_keeps _ (·.insertUnder attributes parent) h
      (Work.keeps_insertUnder h attributes parent)) fun _ => rfl
  | insertRoot attributes =>
    exact endsWell_changed (Store.change_keeps _ (·.insertRoot attributes) h
      (Work.keeps_insertRoot h attributes)) fun _ => rfl
  | delete id withDescendants =>
    exact endsWell_changed (Store.change_keeps _ (·.deleteNode id withDescendants) h
      (Work.keeps_deleteNode h id withDescendants)) fun _ => rfl
  | importForest forest target given =>
    exact endsWell_changed (Store.importForest_keeps h _ _ forest target) fun _ => rfl
  | viewSave n =>
    exact endsWell_changed (Store.change_keeps _ (·.save n) h (Work.keeps_save h n)) fun _ => rfl
  | get id => exact endsWell_answered h (Table.plain_require _ id) fun _ => rfl
  | childrenOf parent directOnly order mode =>
    exact endsWell_ordered _ order h
      (fun keys => Table.plain_childrenOfAnnotated _ keys parent directOnly mode) fun _ => rfl
  | childCount parent directOnly =>
    exact endsWell_answered h (Table.plain_childCount _ parent directOnly) fun _ => rfl
  | parentOf child depth =>
    exact endsWell_answered h (ho.plain_parentOf child depth) fun _ => rfl
  | rootNode => exact endsWell_answered h ho.plain_root? fun _ => rfl
  | requireRoot => exact endsWell_answered h ho.plain_requireRoot fun _ => rfl
  | nodes => exact endsWell_answered h (plain_ok _) fun _ => rfl
  | verify => exact endsWell_answered h h.plain_verify fun _ => rfl
  | viewById id =>
    exact endsWell_answered h ((Table.plain_require _ id).bind fun _ _ => plain_ok _) fun _ => rfl
  | viewChildrenOf parent order mode =>
    exact endsWell_ordered _ order h (fun keys => ho.plain_viewChildrenOf keys parent mode)
      fun _ => rfl
  | hold ids =>
    exact endsWell_answered (s := { s with held := (fetch s.store.table ids).1 }) h
      (plain_fetch _ ids) fun _ => rfl
  | annotateHeld directOnly =>
    refine ⟨h, fun e he => ?_⟩
    have hplain := Table.plain_annotate s.store.table directOnly s.held
    simp only [run, complaint?] at he
    split at he
    · next e' he' =>
      cases he
      exact hplain _ he'
    · cases he
  | read action => exact endsWell_read h action
  | transaction actions => exact hc.elim
  | storeState => exact ⟨h, fun _ he => nomatch he⟩
  | setFaults faults => exact ⟨h, fun _ he => nomatch he⟩

theorem Reachable.sound {s : Store} (h : Reachable s) : s.table.Sound := by
  induction h with
  | empty => exact Table.sound_iff_draws.mpr ⟨_, Table.Draws.empty⟩
  | run s useSecond c _ hc ih => exact (run_endsWell ih useSecond hc).1

/-- On a sound table every command of a hierarchy leaves a sound table and never ends with the
complaint that the table is corrupt; and only sound tables are reached from the empty store. -/
theorem commands_never_corrupt :
    (∀ (s : Session) (useSecond : Bool) (c : Command), s.store.table.Sound → c.Managed →
      EndsWell (s.run useSecond c)) ∧
    ∀ s, Reachable s → s.table.Sound := by
  exact ⟨fun s useSecond c h hc => run_endsWell h useSecond hc, fun s hs => hs.sound⟩

/-- Four nodes, stored by two hierarchies in turn. A node with a child is not taken out alone, and
an ancestor beyond the root is refused. Then the node goes with its child, and another one comes. -/
theorem commands_never_corrupt_four_nodes :
    let s₁ := ((start .default .default).run false (.insertRoot Dict.empty)).2
    let s₂ := (s₁.run true (.insert (some ⟨1⟩) Dict.empty)).2
    let s₃ := (s₂.run false (.insert (some ⟨2⟩) Dict.empty)).2
    let s₄ := (s₃.run true (.insert none Dict.empty)).2
    let s₅ := (s₄.run false (.delete ⟨2⟩ true)).2
    let refused := s₄.run true (.delete ⟨2⟩ false)
    let asked := s₄.run true (.parentOf ⟨3⟩ (-3))
    let grown := s₅.run true (.insert (some ⟨4⟩) Dict.empty)
    Reachable s₄.store ∧ s₄.store.table.Sound ∧ s₄.store.table.size = 4 ∧
      complaint? refused.1 = some (.hasChildren ⟨2⟩ 1) ∧ EndsWell refused ∧
      complaint? asked.1 = some (.invalidDepth 2 (-3)) ∧ EndsWell asked ∧
      s₅.store.table.rows.map (·.interval) = [⟨1, 4, 0⟩, ⟨2, 3, 1⟩] ∧ s₅.store.table.Sound ∧
      grown.2.store.table.rows.map (·.interval) = [⟨1, 6, 0⟩, ⟨2, 5, 1⟩, ⟨3, 4, 2⟩] ∧
      EndsWell grown := by
  intro s₁ s₂ s₃ s₄ s₅ refused asked grown
  have hreachable : Reachable s₄.store :=
    .run s₃ true _ (.run s₂ false _ (.run s₁ true _ (.run _ false _ .empty trivial) trivial)
      trivial) trivial
  have hsound := commands_never_corrupt.2 s₄.store hreachable
  have hdeleted := commands_never_corrupt.1 s₄ false (.delete ⟨2⟩ true) hsound trivial
  exact ⟨hreachable, hsound, by decide +kernel, by decide +kernel,
    commands_never_corrupt.1 s₄ true (.delete ⟨2⟩ false) hsound trivial, by decide +kernel,
    commands_never_corrupt.1 s₄ true (.parentOf ⟨3⟩ (-3)) hsound trivial, by decide +kernel,
    hdeleted.1, by decide +kernel, commands_never_corrupt.1 s₅ true _ hdeleted.1 trivial⟩

end Session

end FlatTree
