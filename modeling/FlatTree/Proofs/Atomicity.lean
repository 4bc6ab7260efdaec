import FlatTree.Session

/-!
# Changes are all or nothing

A command that writes is one unit of work. As long as no other writer slips in, it either succeeds,
and the store counts one more commit, or fails, and the session is the one it began with, whatever
the unit of work had done to its copy by then. So the failures of a run may be left out of it: the
other commands answer what they answered, and the run ends where it ended. Nothing is asked of the
rows, which need not be well numbered.
-/

namespace FlatTree

namespace Store

variable {ε α : Type} {s : Store} {faults : Faults}

/-- The outcome of a change, with the store behind it: one more commit, or no change at all. -/
def AllOrNothing (s : Store) (r : Except ε α × Store) : Prop :=
  match r.1 with
  | .ok _ => r.2.version = s.version.next
  | .error _ => r.2 = s

theorem commit_version (s : Store) (t : Table) :
    s.commit s.version t = .ok ⟨t, s.version.next⟩ := by
  rw [commit, if_pos rfl]

theorem allOrNothing_write (h : faults.conflict = false) (lift : StoreError → ε)
    (unit : Work → Except ε (α × Work)) : s.AllOrNothing (s.write faults lift unit) := by
  rw [write]
  cases unit ⟨s.table, faults.quota⟩ with
  | error e => exact rfl
  | ok p =>
    simp only [h, Bool.false_eq_true, if_false, commit_version]
    exact rfl

/-- The strict policy refuses a forest for its references before any unit of work has begun. -/
theorem allOrNothing_importForest (h : faults.conflict = false) (settings : ImportSettings)
    (forest : Forest) (target : NodeId) :
    s.AllOrNothing (s.importForest faults settings forest target) := by
  rw [importForest]
  split
  · exact rfl
  · exact allOrNothing_write h _ _

end Store

namespace Session

/-- Whether a command ended without a failure. Raw writes end with their log, beside which there
may be a failure. -/
def succeeded : Except Failure Answer → Bool
  | .error _ => false
  | .ok (.log _ failure) => failure.isNone
  | .ok _ => true

/-- The session after some commands. -/
def finish (s : Session) (commands : List (Bool × Command)) : Session :=
  commands.foldl (fun s c => (s.run c.1 c.2).2) s

/-- The commands of a run that succeeded in it. -/
def successes (s : Session) (commands : List (Bool × Command)) : List (Bool × Command) :=
  ((commands.zip (s.runAll commands)).filter (succeeded ·.2.outcome)).map Prod.fst

variable {α : Type} {s : Session}

/-- One command that succeeded counts one commit and touches nothing but the store; one that failed
changes nothing. -/
def AllOrNothing (s : Session) (r : Except Failure Answer × Session) : Prop :=
  if succeeded r.1 then
    r.2 = { s with store := r.2.store } ∧ r.2.store.version = s.store.version.next
  else r.2 = s

theorem allOrNothing_changed {answer : α → Answer} {r : Except TreeError α × Store}
    (hr : s.store.AllOrNothing r) (hanswer : ∀ a, succeeded (.ok (answer a)) = true) :
    s.AllOrNothing (s.changed answer r) := by
  obtain ⟨outcome, store⟩ := r
  cases outcome with
  | error e =>
    obtain rfl : store = s.store := hr
    exact rfl
  | ok a =>
    have hsucceeded : succeeded (s.changed answer (.ok a, store)).1 = true := hanswer a
    rw [AllOrNothing, if_pos hsucceeded]
    exact ⟨rfl, hr⟩

private theorem allOrNothing_transact (h : s.faults.conflict = false) (actions : List Action) :
    s.AllOrNothing (.ok (s.transact actions).1, (s.transact actions).2) := by
  have hwrite := Store.allOrNothing_write (s := s.store) h (fun e => Failure.tree (.store e))
    fun w => (runActions w actions).2.map ((), ·)
  simp only [transact]
  generalize s.store.write s.faults _ _ = r at hwrite
  obtain ⟨outcome, store⟩ := r
  cases outcome with
  | error e =>
    obtain rfl : store = s.store := hwrite
    exact rfl
  | ok u => exact ⟨rfl, hwrite⟩

/-- Every command that writes is all or nothing, whatever it is and however late it fails. -/
theorem allOrNothing_run (h : s.faults.conflict = false) (useSecond : Bool) {c : Command}
    (hc : c.writes = true) : s.AllOrNothing (s.run useSecond c) := by
  cases c with
  | insert parent attributes =>
    exact allOrNothing_changed (Store.allOrNothing_write h _ _) fun _ => rfl
  | insertRoot attributes =>
    exact allOrNothing_changed (Store.allOrNothing_write h _ _) fun _ => rfl
  | delete id withDescendants =>
    exact allOrNothing_changed (Store.allOrNothing_write h _ _) fun _ => rfl
  | importForest forest target given =>
    exact allOrNothing_changed (Store.allOrNothing_importForest h _ forest target) fun _ => rfl
  | viewSave n => exact allOrNothing_changed (Store.allOrNothing_write h _ _) fun _ => rfl
  | transaction actions => exact allOrNothing_transact h actions
  | _ => cases hc

theorem AllOrNothing.faults {r : Except Failure Answer × Session} (h : s.AllOrNothing r) :
    r.2.faults = s.faults := by
  rw [AllOrNothing] at h
  split at h
  · rw [h.1]
  · rw [h]

theorem runAll_cons (s : Session) (c : Bool × Command) (commands : List (Bool × Command)) :
    s.runAll (c :: commands) =
      ⟨(s.run c.1 c.2).1, (s.run c.1 c.2).2.store,
        c.2.writes || (s.run c.1 c.2).2.store.version != s.store.version⟩ ::
          (s.run c.1 c.2).2.runAll commands :=
  rfl

private theorem successes_cons (s : Session) (c : Bool × Command)
    (commands : List (Bool × Command)) :
    s.successes (c :: commands) =
      if succeeded (s.run c.1 c.2).1 then c :: (s.run c.1 c.2).2.successes commands
      else (s.run c.1 c.2).2.successes commands := by
  simp only [successes, runAll_cons, List.zip_cons_cons, List.filter_cons]
  split <;> rfl

/-- A command that failed can be left out before all others. -/
theorem runAll_successes (h : s.faults.conflict = false) {commands : List (Bool × Command)}
    (hc : ∀ c ∈ commands, c.2.writes = true) :
    s.runAll (s.successes commands) = (s.runAll commands).filter (succeeded ·.outcome) ∧
      s.finish (s.successes commands) = s.finish commands := by
  induction commands generalizing s with
  | nil => exact ⟨rfl, rfl⟩
  | cons c commands ih =>
    obtain ⟨hwrites, hc⟩ := List.forall_mem_cons.mp hc
    have hstep := allOrNothing_run h c.1 hwrites
    obtain ⟨hrun, hfinish⟩ := ih (s := (s.run c.1 c.2).2) (hstep.faults ▸ h) hc
    rw [successes_cons]
    by_cases hs : succeeded (s.run c.1 c.2).1 = true
    · rw [if_pos hs, runAll_cons, runAll_cons, hrun, List.filter_cons_of_pos (by exact hs)]
      exact ⟨rfl, hfinish⟩
    · have hsame : (s.run c.1 c.2).2 = s := by
        rwa [AllOrNothing, if_neg hs] at hstep
      rw [hsame] at hrun hfinish
      rw [if_neg hs, runAll_cons, hsame, List.filter_cons_of_neg (by exact hs)]
      refine ⟨hrun, hfinish.trans ?_⟩
      rw [finish, finish, List.foldl_cons, hsame]

/-- Commands that write are all or nothing, and the failures of a run can be left out: the commands
that succeeded then give the same answers and leave the same stores, one by one. -/
theorem failures_leave_no_trace (h : s.faults.conflict = false) :
    (∀ (useSecond : Bool) (c : Command), c.writes = true → s.AllOrNothing (s.run useSecond c)) ∧
      ∀ commands : List (Bool × Command), (∀ c ∈ commands, c.2.writes = true) →
        s.runAll (s.successes commands) = (s.runAll commands).filter (succeeded ·.outcome) ∧
          s.finish (s.successes commands) = s.finish commands :=
  ⟨fun useSecond _ hc => allOrNothing_run h useSecond hc, fun _ hc => runAll_successes h hc⟩

/-- A row too wide for what it encloses. Its deletion fails after the row was taken out, and a unit
of raw writes fails after its first one; the insertion behind them gets the identity and the version
that it would have got at once. -/
theorem failures_leave_no_trace_wide_row :
    let s := ((start .default .default).run false (.transaction [.insert ⟨1, 4, 0⟩ Dict.empty])).2
    let commands : List (Bool × Command) :=
      [(true, .delete ⟨1⟩ true),
        (false, .transaction [.insert ⟨5, 6, 1⟩ Dict.empty, .read (.fail "no")]),
        (true, .insert (some ⟨1⟩) Dict.empty)]
    s.faults.conflict = false ∧ (∀ c ∈ commands, c.2.writes = true) ∧
      (s.runAll commands).map (succeeded ·.outcome) = [false, false, true] ∧
      s.AllOrNothing (s.run true (.delete ⟨1⟩ true)) ∧
      s.runAll (s.successes commands) = (s.runAll commands).filter (succeeded ·.outcome) ∧
        s.finish (s.successes commands) = s.finish commands := by
  intro s commands
  have hconflict : s.faults.conflict = false := rfl
  have hwrites : ∀ c ∈ commands, c.2.writes = true := by simp [commands, Command.writes]
  exact ⟨hconflict, hwrites, by decide +kernel,
    (failures_leave_no_trace hconflict).1 true (.delete ⟨1⟩ true) rfl,
    (failures_leave_no_trace hconflict).2 commands hwrites⟩

end Session

end FlatTree
