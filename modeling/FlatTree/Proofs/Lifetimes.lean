import FlatTree.Proofs.Atomicity
import FlatTree.Proofs.Soundness
import FlatTree.Proofs.Steps
import FlatTree.Proofs.Traversal

/-!
# What a row keeps

Whatever a unit of work does, it comes down to three kinds of write: storing a row, shifting a
bound of all rows, taking rows out. None of them changes an identity, a depth or attributes, and
identities are given out in ascending order, so over any run of commands a row is what it was when
it was stored but for its two bounds, and once it is gone its identity stands for nothing again.
Nothing is asked of the rows, which need not be well numbered.
-/

namespace FlatTree

/-- A row as it was stored, and as it is later: only its bounds may have changed. -/
structure Row.Lasts (r r' : Row) : Prop where
  id : r'.id = r.id
  attributes : r'.attributes = r.attributes
  depth : r'.interval.depth = r.interval.depth

theorem Row.Lasts.refl (r : Row) : r.Lasts r :=
  ⟨rfl, rfl, rfl⟩

theorem Row.Lasts.trans {r r' r'' : Row} (h : r.Lasts r') (h' : r'.Lasts r'') : r.Lasts r'' :=
  ⟨h'.id.trans h.id, h'.attributes.trans h.attributes, h'.depth.trans h.depth⟩

namespace Table

/-- Identities begin with 1, and those of all rows have been given out. -/
structure Issued (t : Table) : Prop where
  positive : 0 < t.nextId
  ids : ∀ r ∈ t.rows, 0 < r.id.val ∧ r.id.val < t.nextId

theorem issued_empty : Table.empty.Issued :=
  ⟨Nat.one_pos, fun _ h => nomatch h⟩

theorem Issued.get?_zero {t : Table} (h : t.Issued) : t.get? ⟨0⟩ = none := by
  rw [get?_eq_none_iff]
  intro hmem
  obtain ⟨r, hr, hid⟩ := List.mem_map.mp hmem
  have hpos := (h.ids r hr).1
  rw [hid] at hpos
  exact Nat.lt_irrefl 0 hpos

/-- A table has become another one, and the rows in `log` have been stored on the way, in this
order. They got the next identities; what is there now was there before or is one of them. -/
structure Becomes (t : Table) (log : List Row) (t' : Table) : Prop where
  nextId : t'.nextId = t.nextId + log.length
  ids : log.map (·.id.val) = List.range' t.nextId log.length
  lasts : ∀ r' ∈ t'.rows, ∃ r, (r ∈ t.rows ∨ r ∈ log) ∧ r.Lasts r'

namespace Becomes

variable {t t' t'' : Table} {log log' : List Row}

theorem refl (t : Table) : t.Becomes [] t where
  nextId := rfl
  ids := rfl
  lasts := fun r h => ⟨r, .inl h, .refl r⟩

theorem trans (h : t.Becomes log t') (h' : t'.Becomes log' t'') : t.Becomes (log ++ log') t'' where
  nextId := by rw [h'.nextId, h.nextId, List.length_append, Nat.add_assoc]
  ids := by
    rw [List.map_append, h.ids, h'.ids, h.nextId, List.length_append]
    exact List.range'_append_1
  lasts := by
    intro r'' hr''
    obtain ⟨r', hr' | hr', hlasts'⟩ := h'.lasts r'' hr''
    · obtain ⟨r, hr, hlasts⟩ := h.lasts r' hr'
      exact ⟨r, hr.imp_right (List.mem_append_left _), hlasts.trans hlasts'⟩
    · exact ⟨r', .inr (List.mem_append_right _ hr'), hlasts'⟩

theorem id_of_mem (h : t.Becomes log t') {r : Row} (hr : r ∈ log) :
    t.nextId ≤ r.id.val ∧ r.id.val < t'.nextId := by
  have hid : r.id.val ∈ log.map (·.id.val) := List.mem_map_of_mem hr
  rw [h.ids, List.mem_range'_1, ← h.nextId] at hid
  exact hid

theorem issued (h : t.Becomes log t') (ht : t.Issued) : t'.Issued where
  positive := by
    have := h.nextId
    have := ht.positive
    omega
  ids := by
    intro r' hr'
    obtain ⟨r, hr | hr, hlasts⟩ := h.lasts r' hr'
    · have := h.nextId
      have := ht.ids r hr
      rw [hlasts.id]
      omega
    · have := h.id_of_mem hr
      have := ht.positive
      rw [hlasts.id]
      omega

/-- An identity that was given out and stands for nothing will stand for nothing. -/
theorem get?_eq_none (h : t.Becomes log t') {id : NodeId} (hid : id.val < t.nextId)
    (hnone : t.get? id = none) : t'.get? id = none := by
  rw [get?_eq_none_iff] at hnone ⊢
  intro hmem
  obtain ⟨r', hr', rfl⟩ := List.mem_map.mp hmem
  obtain ⟨r, hr | hr, hlasts⟩ := h.lasts r' hr'
  · exact hnone (hlasts.id ▸ List.mem_map_of_mem hr)
  · have hle := (h.id_of_mem hr).1
    rw [hlasts.id] at hid
    omega

end Becomes

private theorem becomes_insert (t : Table) (attributes : Attributes) (i : Interval) :
    t.Becomes [(t.insert attributes i).1] (t.insert attributes i).2 where
  nextId := rfl
  ids := rfl
  lasts := by
    intro r hr
    rcases mem_putRow hr with rfl | hr
    · exact ⟨_, .inr List.mem_cons_self, .refl _⟩
    · exact ⟨r, .inl hr, .refl r⟩

private theorem becomes_shift (t : Table) (side : Side) (s : Shift) :
    t.Becomes [] (t.shift side s) where
  nextId := rfl
  ids := rfl
  lasts := by
    intro r' hr'
    obtain ⟨r, hr, rfl⟩ := List.mem_map.mp hr'
    exact ⟨r, .inl hr, rfl, rfl, by cases side <;> rfl⟩

private theorem becomes_delete (t : Table) (f : Filter) : t.Becomes [] (t.delete f) where
  nextId := rfl
  ids := rfl
  lasts := fun r hr => ⟨r, .inl (List.mem_filter.mp hr).1, .refl r⟩

end Table

namespace Work

/-- Writes on the copy of a unit of work, one after the other, with the rows that they stored. -/
inductive Writes : Work → List Row → Work → Prop
  | nil (w : Work) : Writes w [] w
  | insert {w w' w'' : Work} {attributes : Attributes} {i : Interval} {r : Row} {log : List Row} :
    w.insert attributes i = .ok (r, w') → Writes w' log w'' → Writes w (r :: log) w''
  | shift {w w' w'' : Work} {side : Side} {s : Shift} {n : Nat} {log : List Row} :
    w.shift side s = .ok (n, w') → Writes w' log w'' → Writes w log w''
  | delete {w w' w'' : Work} {f : Filter} {n : Nat} {log : List Row} :
    w.delete f = .ok (n, w') → Writes w' log w'' → Writes w log w''

variable {α β : Type} {w w' w'' : Work} {log log' : List Row}

theorem Writes.trans (h : Writes w log w') (h' : Writes w' log' w'') :
    Writes w (log ++ log') w'' := by
  induction h with
  | nil => exact h'
  | insert hstep _ ih => exact .insert hstep (ih h')
  | shift hstep _ ih => exact .shift hstep (ih h')
  | delete hstep _ ih => exact .delete hstep (ih h')

/-- A write that is not refused is the write of the table. -/
theorem Does.of_ok {a : α} {post : α → Prop} {x : Except StoreError α} (h : w.Does (lift x) post)
    (hx : x = .ok a) : post a := by
  subst hx
  exact h

theorem Writes.becomes (h : Writes w log w') : w.table.Becomes log w'.table := by
  induction h with
  | nil w => exact .refl w.table
  | insert hstep _ ih =>
    obtain ⟨hr, ht, -⟩ := (does_insert _ _ _).of_ok hstep
    dsimp only at hr ht
    rw [ht] at ih
    rw [hr]
    exact (Table.becomes_insert _ _ _).trans ih
  | shift hstep _ ih =>
    obtain ⟨ht, -⟩ := (does_shift _ _ _).of_ok hstep
    dsimp only at ht
    rw [ht] at ih
    exact (Table.becomes_shift _ _ _).trans ih
  | delete hstep _ ih =>
    obtain ⟨-, ht, -⟩ := (does_delete _ _).of_ok hstep
    dsimp only at ht
    rw [ht] at ih
    exact (Table.becomes_delete _ _).trans ih

/-! ## What the changes write -/

theorem lift_eq_ok_iff {x : Except StoreError α} {a : α} : lift x = .ok a ↔ x = .ok a := by
  cases x <;> simp [lift]

theorem writes_insert {attributes : Attributes} {i : Interval} {r : Row}
    (h : lift (w.insert attributes i) = .ok (r, w')) : Writes w [r] w' :=
  .insert (lift_eq_ok_iff.mp h) (.nil w')

private theorem writes_applyShift {s : Shift} (h : w.applyShift s = .ok w') : Writes w [] w' := by
  obtain ⟨⟨m, w₁⟩, hleft, h⟩ := bind_eq_ok_iff.mp h
  obtain ⟨⟨n, w₂⟩, hright, h⟩ := bind_eq_ok_iff.mp h
  cases h
  exact .shift (lift_eq_ok_iff.mp hleft) (.shift (lift_eq_ok_iff.mp hright) (.nil w'))

private theorem writes_placeUnder {attributes : Attributes} {parent r : Row}
    (h : w.placeUnder attributes parent = .ok (r, w')) : Writes w [r] w' := by
  obtain ⟨w₁, hshift, h⟩ := bind_eq_ok_iff.mp h
  exact (writes_applyShift hshift).trans (writes_insert h)

theorem writes_insertRoot {attributes : Attributes} {r : Row}
    (h : w.insertRoot attributes = .ok (r, w')) : Writes w [r] w' := by
  obtain ⟨root, -, h⟩ := bind_eq_ok_iff.mp h
  cases root with
  | some root => cases h
  | none => exact writes_insert h

theorem writes_insertUnder {attributes : Attributes} {parent : Option NodeId} {r : Row}
    (h : w.insertUnder attributes parent = .ok (r, w')) : Writes w [r] w' := by
  cases parent with
  | some id =>
    rw [insertUnder] at h
    cases hget : w.table.get? id with
    | none =>
      rw [hget] at h
      cases h
    | some p =>
      rw [hget] at h
      exact writes_placeUnder h
  | none =>
    obtain ⟨root, -, h⟩ := bind_eq_ok_iff.mp h
    cases root with
    | some root => exact writes_placeUnder h
    | none => exact writes_insertRoot h

private theorem writes_deleteNode {id : NodeId} {withDescendants : Bool} {n : Nat}
    (h : w.deleteNode id withDescendants = .ok (n, w')) : Writes w [] w' := by
  obtain ⟨r, -, h⟩ := bind_eq_ok_iff.mp h
  cases hremoval : r.interval.removal withDescendants with
  | error e =>
    rw [hremoval] at h
    cases h
  | ok removal =>
    rw [hremoval] at h
    obtain ⟨⟨m, w₁⟩, hdelete, h⟩ := bind_eq_ok_iff.mp h
    dsimp only at h
    split at h
    · cases h
    · obtain ⟨w₂, hshift, h⟩ := bind_eq_ok_iff.mp h
      cases h
      exact .delete (lift_eq_ok_iff.mp hdelete) (writes_applyShift hshift)

private theorem writes_rootOrNew {id : NodeId} (h : w.rootOrNew = .ok (id, w')) :
    ∃ log, Writes w log w' := by
  obtain ⟨root, -, h⟩ := bind_eq_ok_iff.mp h
  cases root with
  | some root =>
    cases h
    exact ⟨[], .nil w⟩
  | none =>
    obtain ⟨⟨root, w₁⟩, hroot, h⟩ := bind_eq_ok_iff.mp h
    cases h
    exact ⟨[root], writes_insertRoot hroot⟩

/-- A node that is saved is stored last, perhaps after a root for it to go under. -/
theorem writes_save {n n' : ExternalNode} (h : w.save n = .ok (n', w')) :
    ∃ earlier r, Writes w (earlier ++ [r]) w' ∧ n'.id = some r.id.val := by
  have hinsert : ∀ (parent : NodeId) (w₁ : Work),
      (w₁.insertUnder n.attributes (some parent) >>= fun p =>
        pure (ExternalNode.ofChild parent p.1.toNode, p.2)) = Except.ok (n', w') →
      ∃ r, Writes w₁ [r] w' ∧ n'.id = some r.id.val := by
    intro parent w₁ h
    obtain ⟨⟨r, w₂⟩, hinsert, h⟩ := bind_eq_ok_iff.mp h
    cases h
    exact ⟨r, writes_insertUnder hinsert, rfl⟩
  rw [save] at h
  cases hparent : n.parent with
  | some id =>
    rw [hparent] at h
    obtain ⟨r, hwrites, hid⟩ := hinsert ⟨id⟩ w h
    exact ⟨[], r, hwrites, hid⟩
  | none =>
    rw [hparent] at h
    obtain ⟨⟨parent, w₁⟩, hroot, h⟩ := bind_eq_ok_iff.mp h
    obtain ⟨earlier, hearlier⟩ := writes_rootOrNew hroot
    obtain ⟨r, hwrites, hid⟩ := hinsert parent w₁ h
    exact ⟨earlier, r, hearlier.trans hwrites, hid⟩

/-- An import stores one row after the other, and notes identities of rows that it stored. -/
theorem writes_run {sentinel : Option Nat} {forest : Forest} {p p' : Import.Progress}
    {queue : List ((ExternalNode × Nat) × NodeId)}
    (h : Import.run sentinel forest p queue = .ok p') :
    ∃ log, Writes p.work log p'.work ∧ p'.inserted = p.inserted + log.length ∧
      ∀ q id, p'.idMap.get? q = some id → p.idMap.get? q = some id ∨ ∃ r ∈ log, r.id = id := by
  fun_induction Import.run sentinel forest p queue with
  | case1 p =>
    cases h
    exact ⟨[], .nil _, rfl, fun _ _ h => .inl h⟩
  | case2 p n i parent queue hi hlt e he => cases h
  | case3 p n i parent queue hi hlt r w hw ih =>
    obtain ⟨log, hwrites, hinserted, hnoted⟩ := ih h
    refine ⟨r :: log, (writes_insertUnder hw).trans hwrites, ?_, fun q id hget => ?_⟩
    · rw [hinserted, List.length_cons, Nat.add_right_comm]
      rfl
    · rcases hnoted q id hget with hget | ⟨r', hr', hid⟩
      · rw [Import.note_get?, Option.or_eq_some_iff] at hget
        rcases hget with hget | ⟨-, hget⟩
        · exact .inl hget
        · split at hget
          · cases hget
            exact .inr ⟨r, List.mem_cons_self, rfl⟩
          · cases hget
      · exact .inr ⟨r', List.mem_cons_of_mem _ hr', hid⟩
  | case4 p n i parent queue hi ih => exact ih h

theorem writes_importForest {settings : ImportSettings} {forest : Forest} {target : NodeId}
    {report : ImportReport} (h : w.importForest settings forest target = .ok (report, w')) :
    ∃ log, Writes w log w' ∧ report.inserted = log.length ∧
      ∀ q id, report.idMap.get? q = some id → ∃ r ∈ log, r.id = id := by
  rw [importForest] at h
  split at h
  · cases h
  · dsimp only at h
    split at h
    · cases h
    · next p hrun =>
      obtain ⟨log, hwrites, hinserted, hnoted⟩ := writes_run hrun
      split at h
      · cases h
      · cases h
        refine ⟨log, hwrites, hinserted.trans (Nat.zero_add _), fun q id hget => ?_⟩
        rcases hnoted q id hget with hget | hr
        · cases hget
        · exact hr

end Work

namespace Session

/-- The row that an action stored. -/
def ActionAnswer.stored? : ActionAnswer → Option Row
  | .row r => some r
  | _ => none

/-- What only reads tells of no row that it stored. -/
theorem stored?_of_readAction {t : Table} {action : ReadAction} {answer : ActionAnswer}
    (h : readAction t action = .ok answer) : answer.stored? = none := by
  cases action with
  | get id =>
    cases h
    rfl
  | find f order idsOnly =>
    obtain ⟨keys, -, h⟩ := bind_eq_ok_iff.mp h
    cases h
    cases idsOnly <;> rfl
  | count f =>
    cases h
    rfl
  | fail message => cases h

/-- An action of a unit of work that succeeds is one write, or none if it only reads. -/
theorem writes_runAction {w w' : Work} {action : Action} {answer : ActionAnswer}
    (h : runAction w action = .ok (answer, w')) : Work.Writes w answer.stored?.toList w' := by
  cases action with
  | insert i attributes =>
    obtain ⟨⟨r, w₁⟩, hstep, h⟩ := map_eq_ok_iff.mp h
    cases h
    exact .insert (mapError_eq_ok_iff.mp hstep) (.nil w')
  | shift side s =>
    obtain ⟨⟨n, w₁⟩, hstep, h⟩ := map_eq_ok_iff.mp h
    cases h
    exact .shift (mapError_eq_ok_iff.mp hstep) (.nil w')
  | delete f =>
    obtain ⟨⟨n, w₁⟩, hstep, h⟩ := map_eq_ok_iff.mp h
    cases h
    exact .delete (mapError_eq_ok_iff.mp hstep) (.nil w')
  | read action =>
    obtain ⟨a, hstep, h⟩ := map_eq_ok_iff.mp h
    cases h
    rw [stored?_of_readAction hstep]
    exact .nil w

private theorem writes_runActions {w w' : Work} {actions : List Action}
    (h : (runActions w actions).2 = .ok w') :
    Work.Writes w ((runActions w actions).1.filterMap ActionAnswer.stored?) w' := by
  induction actions generalizing w with
  | nil =>
    cases h
    exact .nil _
  | cons action actions ih =>
    rw [runActions] at h ⊢
    cases hstep : runAction w action with
    | error e =>
      rw [hstep] at h
      cases h
    | ok p =>
      obtain ⟨answer, w₁⟩ := p
      rw [hstep] at h
      have hrest := (writes_runAction hstep).trans (ih h)
      simp only
      rw [List.filterMap_cons]
      cases hstored : answer.stored? with
      | none =>
        rw [hstored] at hrest
        exact hrest
      | some r =>
        rw [hstored] at hrest
        exact hrest

end Session

namespace Store

variable {ε α : Type} {s : Store} {faults : Faults} {post : α → List Row → Prop}

/-- What a change of the store has stored, which is nothing if it failed, and what is known of it
beside the answer. -/
def Stored (s : Store) (faults : Faults) (post : α → List Row → Prop) (r : Except ε α × Store) :
    Prop :=
  ∃ log w, Work.Writes ⟨s.table, faults.quota⟩ log w ∧ r.2.table = w.table ∧
    match r.1 with
    | .ok a => post a log
    | .error _ => log = []

theorem stored_error (e : ε) {s' : Store} (h : s'.table = s.table) :
    s.Stored faults post (.error e, s') :=
  ⟨[], _, .nil _, h, rfl⟩

/-- A unit of work stores what it wrote to its copy, or nothing. -/
theorem stored_write (post : α → List Row → Prop) (lift : StoreError → ε)
    {unit : Work → Except ε (α × Work)}
    (h : ∀ a w, unit ⟨s.table, faults.quota⟩ = .ok (a, w) →
      ∃ log, Work.Writes ⟨s.table, faults.quota⟩ log w ∧ post a log) :
    s.Stored faults post (s.write faults lift unit) := by
  rw [write]
  cases hunit : unit ⟨s.table, faults.quota⟩ with
  | error e => exact stored_error e rfl
  | ok p =>
    obtain ⟨a, w⟩ := p
    obtain ⟨log, hwrites, hpost⟩ := h a w hunit
    dsimp only
    split
    · exact stored_error _ (table_slipIn s faults.conflict)
    · next s' hcommit => exact ⟨log, w, hwrites, table_of_commit hcommit, hpost⟩

private theorem stored_importForest (settings : ImportSettings) (forest : Forest)
    (target : NodeId) :
    s.Stored faults (fun report log => report.inserted = log.length ∧
        ∀ q id, report.idMap.get? q = some id → ∃ r ∈ log, r.id = id)
      (s.importForest faults settings forest target) := by
  rw [importForest]
  split
  · exact stored_error _ rfl
  · exact stored_write _ _ fun _ _ h => Work.writes_importForest h

end Store

namespace Session

variable {α : Type} {s : Session}

/-- The rows that a command stored, as far as its outcome tells of them: none if it failed. -/
def Tells (log : List Row) : Command → Except Failure Answer → Prop
  | .insert _ _, .ok (.row r) => log = [r]
  | .insertRoot _, .ok (.row r) => log = [r]
  | .viewSave _, .ok (.external n) => ∃ earlier r, log = earlier ++ [r] ∧ n.id = some r.id.val
  | .importForest _ _ _, .ok (.report report) => report.inserted = log.length ∧
      ∀ q id, report.idMap.get? q = some id → ∃ r ∈ log, r.id = id
  | .transaction _, .ok (.log answers none) => log = answers.filterMap ActionAnswer.stored?
  | _, _ => log = []

/-- The rows that a command stored, in this order: its writes lead to the table behind it, and its
outcome tells of them. -/
structure Stores (s : Session) (c : Bool × Command) (log : List Row) : Prop where
  writes : ∃ w, Work.Writes ⟨s.store.table, s.faults.quota⟩ log w ∧
    (s.run c.1 c.2).2.store.table = w.table
  tells : Tells log c.2 (s.run c.1 c.2).1

/-- What the commands of a run stored, one by one. -/
inductive History : Session → List (Bool × Command) → List (List Row) → Prop
  | nil (s : Session) : History s [] []
  | cons {s : Session} {c : Bool × Command} {commands : List (Bool × Command)} {log : List Row}
    {logs : List (List Row)} : s.Stores c log → History (s.run c.1 c.2).2 commands logs →
    History s (c :: commands) (log :: logs)

private theorem tells_error (c : Command) (e : Failure) : Tells [] c (.error e) := by
  cases c <;> rfl

/-- A command that only reads leaves the store as it is. -/
theorem store_run_of_reads (useSecond : Bool) {c : Command} (h : c.writes = false) :
    (s.run useSecond c).2.store = s.store := by
  cases c with
  | childrenOf parent directOnly order mode =>
    simp only [run, ordered]
    split <;> rfl
  | viewChildrenOf parent order mode =>
    simp only [run, ordered]
    split <;> rfl
  | insert | insertRoot | delete | importForest | viewSave | transaction => cases h
  | _ => rfl

private theorem exists_stores_of_reads (useSecond : Bool) {c : Command} (h : c.writes = false) :
    ∃ log, s.Stores (useSecond, c) log := by
  refine ⟨[], ⟨_, .nil _, congrArg Store.table (store_run_of_reads useSecond h)⟩, ?_⟩
  cases c with
  | insert | insertRoot | delete | importForest | viewSave | transaction => cases h
  | _ => rfl

theorem exists_stores_of_changed {c : Bool × Command} {answer : α → Answer}
    {r : Except TreeError α × Store} (post : α → List Row → Prop)
    (hrun : s.run c.1 c.2 = s.changed answer r) (hr : s.store.Stored s.faults post r)
    (htells : ∀ a log, post a log → Tells log c.2 (.ok (answer a))) :
    ∃ log, s.Stores c log := by
  obtain ⟨log, w, hwrites, htable, hpost⟩ := hr
  refine ⟨log, ⟨w, hwrites, ?_⟩, ?_⟩
  · rw [hrun]
    exact htable
  · rw [hrun]
    obtain ⟨outcome, store⟩ := r
    cases outcome with
    | error e =>
      obtain rfl : log = [] := hpost
      exact tells_error c.2 _
    | ok a => exact htells a log hpost

private theorem exists_stores_transaction (useSecond : Bool) (actions : List Action) :
    ∃ log, s.Stores (useSecond, .transaction actions) log := by
  let unit (w : Work) := (runActions w actions).2.map ((), ·)
  have hunit : ∀ a w, unit ⟨s.store.table, s.faults.quota⟩ = .ok (a, w) →
      ∃ log, Work.Writes ⟨s.store.table, s.faults.quota⟩ log w ∧ log =
        (runActions ⟨s.store.table, s.faults.quota⟩ actions).1.filterMap ActionAnswer.stored? := by
    intro a w h
    obtain ⟨w', hw', heq⟩ := map_eq_ok_iff.mp h
    cases heq
    exact ⟨_, writes_runActions hw', rfl⟩
  have hstored := Store.stored_write _ (fun e => Failure.tree (.store e)) hunit
  obtain ⟨log, w, hwrites, htable, hpost⟩ := hstored
  refine ⟨log, ⟨w, hwrites, htable⟩, ?_⟩
  -- the answers are told either way, and the outcome of the write only says which of them count
  simp only [run, transact]
  generalize s.store.write s.faults _ _ = r at hpost
  obtain ⟨outcome, store⟩ := r
  cases outcome with
  | error e => exact hpost
  | ok u => exact hpost

/-- Every command has stored some rows, or none. -/
theorem exists_stores (s : Session) (c : Bool × Command) : ∃ log, s.Stores c log := by
  obtain ⟨useSecond, c⟩ := c
  cases c with
  | insert parent attributes =>
    exact exists_stores_of_changed (fun r log => log = [r]) rfl
      (Store.stored_write _ _ fun r _ h => ⟨[r], Work.writes_insertUnder h, rfl⟩) fun _ _ h => h
  | insertRoot attributes =>
    exact exists_stores_of_changed (fun r log => log = [r]) rfl
      (Store.stored_write _ _ fun r _ h => ⟨[r], Work.writes_insertRoot h, rfl⟩) fun _ _ h => h
  | delete id withDescendants =>
    exact exists_stores_of_changed (fun _ log => log = []) rfl
      (Store.stored_write _ _ fun _ _ h => ⟨[], Work.writes_deleteNode h, rfl⟩) fun _ _ h => h
  | importForest forest target given =>
    exact exists_stores_of_changed _ rfl (Store.stored_importForest _ _ _) fun _ _ h => h
  | viewSave n =>
    refine exists_stores_of_changed
      (fun n log => ∃ earlier r, log = earlier ++ [r] ∧ n.id = some r.id.val) rfl
      (Store.stored_write _ _ fun n' _ h => ?_) fun _ _ h => by exact h
    obtain ⟨earlier, r, hwrites, hid⟩ := Work.writes_save h
    exact ⟨_, hwrites, earlier, r, rfl, hid⟩
  | transaction actions => exact exists_stores_transaction useSecond actions
  | _ => exact exists_stores_of_reads useSecond rfl

theorem exists_history (s : Session) (commands : List (Bool × Command)) :
    ∃ logs, History s commands logs := by
  induction commands generalizing s with
  | nil => exact ⟨[], .nil s⟩
  | cons c commands ih =>
    obtain ⟨log, hlog⟩ := exists_stores s c
    obtain ⟨logs, hlogs⟩ := ih (s.run c.1 c.2).2
    exact ⟨log :: logs, .cons hlog hlogs⟩

theorem finish_append (s : Session) (commands commands' : List (Bool × Command)) :
    s.finish (commands ++ commands') = (s.finish commands).finish commands' :=
  List.foldl_append

namespace History

variable {commands : List (Bool × Command)} {logs : List (List Row)}

/-- A run is a run of its first commands and one of the others. -/
theorem cut (h : History s commands logs) (k : Nat) :
    History s (commands.take k) (logs.take k) ∧
      History (s.finish (commands.take k)) (commands.drop k) (logs.drop k) := by
  induction h generalizing k with
  | nil s =>
    rw [List.take_nil, List.take_nil, List.drop_nil, List.drop_nil]
    exact ⟨.nil s, .nil s⟩
  | cons hlog hlogs ih =>
    cases k with
    | zero => exact ⟨.nil _, .cons hlog hlogs⟩
    | succ k => exact ⟨.cons hlog (ih k).1, (ih k).2⟩

theorem becomes (h : History s commands logs) :
    s.store.table.Becomes logs.flatten (s.finish commands).store.table := by
  induction h with
  | nil s => exact .refl _
  | cons hlog _ ih =>
    obtain ⟨w, hwrites, htable⟩ := hlog.writes
    have hstep := hwrites.becomes
    rw [← htable] at hstep
    exact hstep.trans ih

end History

/-- A table that commands lead to is sound as soon as its rows pass the check. -/
theorem sound_of_check (first second : Settings) (commands : List (Bool × Command))
    {summary : Summary}
    (h : Numbering.check ((start first second).finish commands).store.table.rows = .ok summary) :
    ((start first second).finish commands).store.table.Sound := by
  obtain ⟨logs, hlogs⟩ := exists_history (start first second) commands
  have hissued := hlogs.becomes.issued Table.issued_empty
  exact ⟨⟨summary, h⟩, fun r hr => (hissued.ids r hr).2⟩

end Session

/-- What a table is like after the rows in `log` were stored. The first two fields hold of every
table, since its type keeps the identities ascending; the others are owed to the log. -/
structure Table.Holds (t : Table) (log : List Row) : Prop where
  own : ∀ id r, t.get? id = some r → r.id = id
  found : ∀ r ∈ t.rows, t.get? r.id = some r
  issued : t.Issued
  appends : ∀ quota log' w, Work.Writes ⟨t, quota⟩ log' w → ∀ attributes i,
    (w.table.insert attributes i).2.rows = w.table.rows ++ [(w.table.insert attributes i).1]
  lasts : ∀ r' ∈ t.rows, ∃ r ∈ log, r.Lasts r'

theorem Table.Becomes.holds {t : Table} {log : List Row} (h : Table.empty.Becomes log t) :
    t.Holds log where
  own _ _ := id_of_get?
  found _ := get?_of_mem
  issued := h.issued issued_empty
  appends _ _ _ hwrites attributes i :=
    rows_insert_of_lt (fun r hr => ((hwrites.becomes.issued (h.issued issued_empty)).ids r hr).2)
      attributes i
  lasts r' hr' := by
    obtain ⟨r, hr | hr, hlasts⟩ := h.lasts r' hr'
    · cases hr
    · exact ⟨r, hr, hlasts⟩

namespace Session

/-- Over any run of commands, with the rows that each command stored: identities ascend in the order
of storing; at every moment each row lies under its own identity, which has been given out, an
insertion can only append, and a row is what it was when it was stored but for its bounds; and an
identity that stands for nothing any more stands for nothing at any later moment, and no row is
stored under it again. -/
theorem identities_last (first second : Settings) (commands : List (Bool × Command)) :
    let tableAt k := ((start first second).finish (commands.take k)).store.table
    ∃ logs, History (start first second) commands logs ∧
      (logs.flatten.map (·.id.val)).Pairwise (· < ·) ∧
      (∀ k, (tableAt k).Holds (logs.take k).flatten) ∧
      ∀ j k, j ≤ k → ∀ r ∈ (logs.take j).flatten, (tableAt j).get? r.id = none →
        (tableAt k).get? r.id = none ∧ ∀ r' ∈ (logs.drop j).flatten, r'.id ≠ r.id := by
  intro tableAt
  obtain ⟨logs, h⟩ := exists_history (start first second) commands
  refine ⟨logs, h, ?_, fun k => (h.cut k).1.becomes.holds, fun j k hjk r hr hgone => ⟨?_, ?_⟩⟩
  · rw [h.becomes.ids]
    exact List.pairwise_lt_range'
  · -- what happens between the two moments is a run of its own
    have hlater := ((h.cut k).1.cut j).2.becomes
    rw [← finish_append, List.take_append_drop, List.take_take, Nat.min_eq_left hjk] at hlater
    exact hlater.get?_eq_none ((h.cut j).1.becomes.id_of_mem hr).2 hgone
  · intro r' hr' hid
    have hlt := ((h.cut j).1.becomes.id_of_mem hr).2
    have hle := ((h.cut j).2.becomes.id_of_mem hr').1
    rw [hid] at hle
    exact absurd hlt (Nat.not_lt.mpr hle)

end Session

end FlatTree
