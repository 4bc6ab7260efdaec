import FlatTree.Store
import Mathlib.Data.List.Induction
import Mathlib.Logic.Function.Basic

/-!
# Units of work side by side

Any number of units of work may be open over one store. Each begins with a copy of the table and
with the version it was copied at, runs on its copy alone, and in the end is committed, refused, or
given up. However they overlap, the table is what the committed ones make of it one after the
other, in the order of their commits. A unit is refused just when another one was committed since
it began; the version tells this, since equal versions mean the very same table.
-/

namespace FlatTree

variable {ε α : Type}

theorem Version.ne_next (v : Version) : v ≠ v.next := by
  intro h
  have hcount : v.count = v.count + 1 := congrArg Version.count h
  omega

/-- What a unit of work runs on its copy, and the writes it may make there. -/
structure Program (ε α : Type) where
  quota : Quota
  body : Work → Except ε (α × Work)

namespace Program

def run (p : Program ε α) (t : Table) : Except ε (α × Work) :=
  p.body ⟨t, p.quota⟩

/-- Runs programs one after the other, each on the table that the one before it left. -/
def runAll (t : Table) : List (Program ε α) → Except ε (List α × Table)
  | [] => .ok ([], t)
  | p :: ps =>
    match p.run t with
    | .error e => .error e
    | .ok (a, w) => (runAll w.table ps).map fun (answers, t) => (a :: answers, t)

/-- Changes nothing. -/
def idle (a : α) : Program ε α :=
  ⟨Quota.unlimited, fun w => .ok (a, w)⟩

private theorem runAll_snoc {t t' : Table} {ps : List (Program ε α)} {answers : List α}
    {p : Program ε α} {a : α} {w : Work}
    (h : runAll t ps = .ok (answers, t')) (hp : p.run t' = .ok (a, w)) :
    runAll t (ps ++ [p]) = .ok (answers ++ [a], w.table) := by
  induction ps generalizing t answers with
  | nil =>
    cases h
    simp [runAll, hp, Except.map]
  | cons q ps ih =>
    rw [runAll] at h
    rw [List.cons_append, runAll]
    cases hq : q.run t with
    | error e => simp [hq] at h
    | ok r =>
      simp only [hq] at h ⊢
      cases hrest : runAll r.2.table ps with
      | error e => simp [hrest, Except.map] at h
      | ok rest =>
        obtain ⟨tail, t''⟩ := rest
        simp only [hrest, Except.map, Except.ok.injEq, Prod.mk.injEq] at h
        obtain ⟨rfl, rfl⟩ := h
        rw [ih hrest]
        rfl

end Program

/-- How far a unit of work has come: it has its copy, or it has run on it. -/
inductive Stage (α : Type) where
  | begun (copy : Table)
  | ran (answer : α) (copy : Table)

structure OpenUnit (ε α : Type) where
  program : Program ε α
  base : Version
  stage : Stage α

/-- A store and the units of work that are open over it, by their numbers. -/
structure BusyStore (ε α : Type) where
  store : Store
  units : Nat → Option (OpenUnit ε α)

/-- What happens to a unit of work. -/
inductive Event (ε α : Type) where
  | begins (unit : Nat) (program : Program ε α)
  | runs (unit : Nat) (answer : α)
  | commits (unit : Nat) (program : Program ε α) (answer : α)
  | isRefused (unit : Nat) (error : StoreError)
  | givesUp (unit : Nat) (error : ε)

namespace Event

/-- The unit it happens to. -/
def unit : Event ε α → Nat
  | .begins k _ | .runs k _ | .commits k _ _ | .isRefused k _ | .givesUp k _ => k

/-- What the unit answers when it ends, failures of the store among those of the program. -/
def outcome? (lift : StoreError → ε) : Event ε α → Option (Except ε α)
  | .commits _ _ a => some (.ok a)
  | .isRefused _ e => some (.error (lift e))
  | .givesUp _ e => some (.error e)
  | _ => none

def committed? : Event ε α → Option (Program ε α × α)
  | .commits _ p a => some (p, a)
  | _ => none

/-- The programs that were committed, in the order of their commits, with their answers. -/
def committed (es : List (Event ε α)) : List (Program ε α × α) :=
  es.filterMap committed?

/-- Another unit was committed. -/
def Overtaken (k : Nat) (es : List (Event ε α)) : Prop :=
  ∃ j p a, j ≠ k ∧ .commits j p a ∈ es

theorem committed_append (es es' : List (Event ε α)) :
    committed (es ++ es') = committed es ++ committed es' :=
  List.filterMap_append

end Event

namespace BusyStore

/-- No unit of work is open. -/
def quiet (s : Store) : BusyStore ε α :=
  ⟨s, fun _ => none⟩

/-- Opens a unit of work, moves it on, or closes it. -/
def set (m : BusyStore ε α) (k : Nat) (u : Option (OpenUnit ε α)) : BusyStore ε α :=
  { m with units := Function.update m.units k u }

/-- One step. Only a commit touches the store. -/
inductive Step : BusyStore ε α → Event ε α → BusyStore ε α → Prop
  | begin {m : BusyStore ε α} {k : Nat} (p : Program ε α) : m.units k = none →
    Step m (.begins k p) (m.set k (some ⟨p, m.store.version, .begun m.store.table⟩))
  | run {m : BusyStore ε α} {k : Nat} {p : Program ε α} {base : Version} {copy : Table} {a : α}
      {w : Work} : m.units k = some ⟨p, base, .begun copy⟩ → p.run copy = .ok (a, w) →
    Step m (.runs k a) (m.set k (some ⟨p, base, .ran a w.table⟩))
  | giveUp {m : BusyStore ε α} {k : Nat} {p : Program ε α} {base : Version} {copy : Table} {e : ε} :
    m.units k = some ⟨p, base, .begun copy⟩ → p.run copy = .error e →
    Step m (.givesUp k e) (m.set k none)
  | commit {m : BusyStore ε α} {k : Nat} {p : Program ε α} {base : Version} {a : α} {copy : Table}
      {s : Store} : m.units k = some ⟨p, base, .ran a copy⟩ → m.store.commit base copy = .ok s →
    Step m (.commits k p a) { m.set k none with store := s }
  | refuse {m : BusyStore ε α} {k : Nat} {p : Program ε α} {base : Version} {a : α} {copy : Table}
      {e : StoreError} : m.units k = some ⟨p, base, .ran a copy⟩ →
    m.store.commit base copy = .error e → Step m (.isRefused k e) (m.set k none)

/-- What has happened, and where it led. -/
inductive Run (m : BusyStore ε α) : List (Event ε α) → BusyStore ε α → Prop
  | nil : Run m [] m
  | snoc {es : List (Event ε α)} {m' m'' : BusyStore ε α} {e : Event ε α} : Run m es m' →
    Step m' e m'' → Run m (es ++ [e]) m''

/-! ## What runs keep -/

/-- What a unit of work has come to is what it would have come to on this table. -/
def Current (u : OpenUnit ε α) (t : Table) : Prop :=
  match u.stage with
  | .begun copy => copy = t
  | .ran a copy => ∃ w, u.program.run t = .ok (a, w) ∧ w.table = copy

/-- What has happened to the open unit `k`: it began at the version of its base and has at most run
since. As long as nothing was committed, its copy is the table. -/
structure Traced (s : Store) (t : Table) (k : Nat) (u : OpenUnit ε α)
    (before after : List (Event ε α)) : Prop where
  base : u.base = ⟨s.version.count + (Event.committed before).length⟩
  since : ∀ e ∈ after, e.unit = k → ∃ a, e = .runs k a
  current : Event.committed after = [] → Current u t

/-- After the events `es`, before which there was only the store `s`. -/
structure Consistent (s : Store) (es : List (Event ε α)) (m : BusyStore ε α) : Prop where
  serial : Program.runAll s.table ((Event.committed es).map Prod.fst) =
    .ok ((Event.committed es).map Prod.snd, m.store.table)
  version : m.store.version = ⟨s.version.count + (Event.committed es).length⟩
  traced : ∀ k u, m.units k = some u → ∃ before after,
    es = before ++ .begins k u.program :: after ∧ Traced s m.store.table k u before after

variable {s : Store} {es : List (Event ε α)} {m m' : BusyStore ε α} {e : Event ε α} {k : Nat}
  {u : OpenUnit ε α}

theorem set_units_self (m : BusyStore ε α) (k : Nat) (u : Option (OpenUnit ε α)) :
    (m.set k u).units k = u :=
  Function.update_self ..

theorem set_units_of_ne (m : BusyStore ε α) {j k : Nat} (u : Option (OpenUnit ε α)) (h : j ≠ k) :
    (m.set k u).units j = m.units j :=
  Function.update_of_ne h ..

private theorem consistent_quiet (s : Store) : Consistent s ([] : List (Event ε α)) (quiet s) where
  serial := rfl
  version := rfl
  traced := fun _ _ h => nomatch h

theorem Traced.snoc {t t' : Table} {before after : List (Event ε α)}
    (h : Traced s t k u before after) (he : e.unit ≠ k) (ht : e.committed? = none → t' = t) :
    Traced s t' k u before (after ++ [e]) where
  base := h.base
  since := by
    intro x hx hunit
    rcases List.mem_append.mp hx with hx | hx
    · exact h.since x hx hunit
    · obtain rfl := List.mem_singleton.mp hx
      exact absurd hunit he
  current := by
    intro hnil
    rw [Event.committed_append, List.append_eq_nil_iff] at hnil
    rw [ht (List.filterMap_eq_nil_iff.mp hnil.2 e (List.mem_singleton_self e))]
    exact h.current hnil.1

/-- A step of one unit leaves what is known of the others. -/
theorem Consistent.traced_of_ne (h : Consistent s es m) (hu : m.units k = some u)
    (he : e.unit ≠ k) (ht : e.committed? = none → m'.store.table = m.store.table) :
    ∃ before after, es ++ [e] = before ++ .begins k u.program :: after ∧
      Traced s m'.store.table k u before after := by
  obtain ⟨before, after, rfl, htraced⟩ := h.traced k u hu
  exact ⟨before, after ++ [e], by simp, htraced.snoc he ht⟩

/-- Equal versions mean the same table: nothing was committed since the unit began. -/
theorem Consistent.version_eq_base_iff (h : Consistent s es m) {before after : List (Event ε α)}
    (hes : es = before ++ .begins k u.program :: after)
    (ht : Traced s m.store.table k u before after) :
    m.store.version = u.base ↔ Event.committed after = [] := by
  have hcount : (Event.committed es).length =
      (Event.committed before).length + (Event.committed after).length := by
    rw [hes, Event.committed_append, List.length_append]
    rfl
  rw [h.version, ht.base, hcount, ← List.length_eq_zero_iff, Version.mk.injEq]
  omega

/-- What a step leaves to be shown for the unit it is about, if it is no commit. -/
theorem Consistent.snoc (h : Consistent s es m) (hstore : m'.store = m.store)
    (he : e.committed? = none) (hothers : ∀ j, j ≠ e.unit → m'.units j = m.units j)
    (hself : ∀ u, m'.units e.unit = some u → ∃ before after,
      es ++ [e] = before ++ .begins e.unit u.program :: after ∧
        Traced s m.store.table e.unit u before after) : Consistent s (es ++ [e]) m' := by
  have hcommitted : Event.committed (es ++ [e]) = Event.committed es := by
    rw [Event.committed_append]
    simp [Event.committed, he]
  constructor
  · rw [hcommitted, hstore]
    exact h.serial
  · rw [hcommitted, hstore]
    exact h.version
  · intro j u hu
    by_cases hj : j = e.unit
    · subst hj
      rw [hstore]
      exact hself u hu
    · rw [hothers j hj] at hu
      exact h.traced_of_ne hu (Ne.symm hj) fun _ => congrArg Store.table hstore

/-- One step keeps the store serial: a copy that is committed is the outcome of the program on the
very table it replaces. -/
theorem Consistent.step (h : Consistent s es m) (hstep : Step m e m') :
    Consistent s (es ++ [e]) m' := by
  cases hstep with
  | @begin k p hk =>
    refine h.snoc rfl rfl (fun j hj => set_units_of_ne m _ hj) fun u hu => ?_
    obtain rfl := Option.some.inj ((set_units_self m k _).symm.trans hu)
    exact ⟨es, [], rfl, h.version, fun _ hx => absurd hx List.not_mem_nil,
      fun _ => rfl⟩
  | @run k p base copy a w hk hrun =>
    refine h.snoc rfl rfl (fun j hj => set_units_of_ne m _ hj) fun u hu => ?_
    obtain rfl := Option.some.inj ((set_units_self m k _).symm.trans hu)
    obtain ⟨before, after, rfl, htraced⟩ := h.traced k _ hk
    refine ⟨before, after ++ [.runs k a], by simp [Event.unit], htraced.base, ?_, ?_⟩
    · intro x hx hunit
      rcases List.mem_append.mp hx with hx | hx
      · exact htraced.since x hx hunit
      · exact ⟨a, List.mem_singleton.mp hx⟩
    · intro hnil
      rw [Event.committed_append, List.append_eq_nil_iff] at hnil
      obtain rfl : copy = m.store.table := htraced.current hnil.1
      exact ⟨w, hrun, rfl⟩
  | @giveUp k p base copy x hk hrun =>
    refine h.snoc rfl rfl (fun j hj => set_units_of_ne m _ hj) fun u hu => ?_
    exact nomatch (set_units_self m k none).symm.trans hu
  | @refuse k p base a copy x hk hcommit =>
    refine h.snoc rfl rfl (fun j hj => set_units_of_ne m _ hj) fun u hu => ?_
    exact nomatch (set_units_self m k none).symm.trans hu
  | @commit k p base a copy s' hk hcommit =>
    obtain ⟨before, after, hes, htraced⟩ := h.traced k _ hk
    rw [Store.commit] at hcommit
    split at hcommit
    case isFalse => cases hcommit
    next hversion =>
    cases hcommit
    -- the version is still the base, so the program ran on a copy of the table that is there now
    obtain ⟨w, hrun, rfl⟩ : Current ⟨p, base, .ran a copy⟩ m.store.table :=
      htraced.current ((h.version_eq_base_iff hes htraced).mp hversion)
    have hlast : Event.committed (es ++ [.commits k p a]) = Event.committed es ++ [(p, a)] := by
      rw [Event.committed_append]
      rfl
    refine ⟨?_, ?_, fun j u hu => ?_⟩
    · rw [hlast, List.map_append, List.map_append]
      exact Program.runAll_snoc h.serial hrun
    · rw [hlast, List.length_append, ← hversion, h.version]
      rfl
    · by_cases hj : j = k
      · subst hj
        exact nomatch (set_units_self m j none).symm.trans hu
      · have hopen : m.units j = some u := (set_units_of_ne m none hj).symm.trans hu
        exact h.traced_of_ne hopen (Ne.symm hj) fun hnone => nomatch hnone

theorem Run.consistent (h : Run (quiet s) es m) : Consistent s es m := by
  induction h with
  | nil => exact consistent_quiet s
  | snoc _ hstep ih => exact ih.step hstep

theorem Run.exists_before {before after : List (Event ε α)} (h : Run m (before ++ after) m') :
    ∃ m₀, Run m before m₀ := by
  generalize hes : before ++ after = es at h
  induction h generalizing after with
  | nil =>
    obtain ⟨rfl, -⟩ := List.append_eq_nil_iff.mp hes
    exact ⟨m, .nil⟩
  | @snoc es m₁ m₂ e hrun hstep ih =>
    cases after using List.reverseRecOn with
    | nil =>
      rw [List.append_nil] at hes
      exact ⟨m₂, hes ▸ hrun.snoc hstep⟩
    | append_singleton after x =>
      rw [← List.append_assoc] at hes
      exact ih (List.append_inj_left' hes rfl)

theorem Traced.overtaken_iff {t : Table} {before after : List (Event ε α)}
    (h : Traced s t k u before after) : Event.Overtaken k after ↔ Event.committed after ≠ [] := by
  constructor
  · rintro ⟨j, p, a, -, hmem⟩ hnil
    exact nomatch List.filterMap_eq_nil_iff.mp hnil _ hmem
  · intro hne
    obtain ⟨⟨p, a⟩, hpa⟩ := List.exists_mem_of_ne_nil _ hne
    obtain ⟨e, he, hcommitted⟩ := List.mem_filterMap.mp hpa
    cases e with
    | commits j q b =>
      refine ⟨j, q, b, ?_, he⟩
      rintro rfl
      obtain ⟨_, hruns⟩ := h.since _ he rfl
      exact nomatch hruns
    | _ => cases hcommitted

/-! ## The end of a unit -/

variable {p : Program ε α} {base : Version} {a : α} {copy : Table}

/-- A unit that has run is refused if the version is no longer the one it began at. -/
theorem step_isRefused_iff (hu : m.units k = some ⟨p, base, .ran a copy⟩) {x : StoreError} :
    Step m (.isRefused k x) m' ↔
      m.store.version ≠ base ∧ x = .conflict base m.store.version ∧ m' = m.set k none := by
  constructor
  · intro h
    cases h with
    | refuse hk hcommit =>
      cases hu.symm.trans hk
      rw [Store.commit] at hcommit
      split at hcommit
      · cases hcommit
      · next hne =>
        cases hcommit
        exact ⟨hne, rfl, rfl⟩
  · rintro ⟨hne, rfl, rfl⟩
    exact .refuse hu (if_neg hne)

/-- Otherwise it can be committed. -/
theorem step_commits_iff (hu : m.units k = some ⟨p, base, .ran a copy⟩) :
    Step m (.commits k p a) m' ↔
      m.store.version = base ∧ m' = { m.set k none with store := ⟨copy, base.next⟩ } := by
  constructor
  · intro h
    cases h with
    | commit hk hcommit =>
      cases hu.symm.trans hk
      rw [Store.commit] at hcommit
      split at hcommit
      · next heq =>
        cases hcommit
        exact ⟨heq, rfl⟩
      · cases hcommit
  · rintro ⟨heq, rfl⟩
    exact .commit hu (if_pos heq)

/-! ## Writes as runs -/

theorem Run.trans {es' : List (Event ε α)} {m'' : BusyStore ε α} (h : Run m es m')
    (h' : Run m' es' m'') : Run m (es ++ es') m'' := by
  induction h' with
  | nil => rwa [List.append_nil]
  | snoc _ hstep ih =>
    rw [← List.append_assoc]
    exact ih.snoc hstep

theorem set_set (m : BusyStore ε α) (k : Nat) (u v : Option (OpenUnit ε α)) :
    (m.set k u).set k v = m.set k v := by
  simp only [set, Function.update_idem]

theorem set_none_of_units (hk : m.units k = none) : m.set k none = m := by
  simp only [set, ← hk, Function.update_eq_self]

/-- A unit that has its copy and has run on it. -/
theorem run_ran (hk : m.units k = none) {p : Program ε α} {a : α} {w : Work}
    (hp : p.run m.store.table = .ok (a, w)) :
    Run m [.begins k p, .runs k a] (m.set k (some ⟨p, m.store.version, .ran a w.table⟩)) := by
  have hran := (Run.nil.snoc (.begin p hk)).snoc (.run (set_units_self m k _) hp)
  rwa [set_set] at hran

/-- A unit that is committed with nothing in between. -/
theorem run_commit (hk : m.units k = none) {p : Program ε α} {a : α} {w : Work}
    (hp : p.run m.store.table = .ok (a, w)) :
    Run m [.begins k p, .runs k a, .commits k p a]
      ⟨⟨w.table, m.store.version.next⟩, m.units⟩ := by
  have hcommit : m.store.commit m.store.version w.table = .ok ⟨w.table, m.store.version.next⟩ :=
    if_pos rfl
  have hdone := (run_ran hk hp).snoc (.commit (set_units_self m k _) hcommit)
  rwa [set_set, set_none_of_units hk] at hdone

/-- A unit that another one overtakes. -/
theorem run_refuse {j : Nat} (hk : m.units k = none) (hj : m.units j = none) (hne : j ≠ k)
    {p : Program ε α} {a : α} {w : Work} (hp : p.run m.store.table = .ok (a, w)) :
    Run m ([.begins k p, .runs k a, .begins j (.idle a), .runs j a, .commits j (.idle a) a] ++
        [.isRefused k (.conflict m.store.version m.store.version.next)])
      ⟨m.store.slipIn, m.units⟩ := by
  let held := m.set k (some ⟨p, m.store.version, .ran a w.table⟩)
  -- the other unit changes nothing, but its commit counts the version up
  have hjheld : held.units j = none := (set_units_of_ne m _ hne).trans hj
  have hidle : (Program.idle a : Program ε α).run held.store.table =
    .ok (a, ⟨m.store.table, .unlimited⟩) := rfl
  have hother := (run_ran hk hp).trans (run_commit hjheld hidle)
  have hconflict : m.store.slipIn.commit m.store.version w.table =
      .error (.conflict m.store.version m.store.version.next) :=
    if_neg m.store.version.ne_next.symm
  have hdone := hother.snoc (.refuse (set_units_self m k _) hconflict)
  have hunits : Function.update held.units k none = m.units :=
    congrArg units ((set_set m k _ none).trans (set_none_of_units hk))
  simp only [set, hunits] at hdone
  exact hdone

/-- A write is a run of these steps with nothing in between, and if the store is told to come into
conflict, with one other unit in between. -/
theorem exists_run_write {j : Nat} (hk : m.units k = none) (hj : m.units j = none) (hne : j ≠ k)
    (faults : Faults) (lift : StoreError → ε) (body : Work → Except ε (α × Work)) :
    ∃ es e, Run m (es ++ [e]) ⟨(m.store.write faults lift body).2, m.units⟩ ∧ e.unit = k ∧
      e.outcome? lift = some (m.store.write faults lift body).1 := by
  let p : Program ε α := ⟨faults.quota, body⟩
  cases hp : p.run m.store.table with
  | error e =>
    have hwrite : m.store.write faults lift body = (.error e, m.store) := by
      have hbody : body ⟨m.store.table, faults.quota⟩ = .error e := hp
      rw [Store.write, hbody]
    have hdone := (Run.nil.snoc (.begin p hk)).snoc (.giveUp (set_units_self m k _) hp)
    rw [set_set, set_none_of_units hk] at hdone
    rw [hwrite]
    exact ⟨[.begins k p], .givesUp k e, hdone, rfl, rfl⟩
  | ok r =>
    obtain ⟨a, w⟩ := r
    have hbody : body ⟨m.store.table, faults.quota⟩ = .ok (a, w) := hp
    cases hconflict : faults.conflict with
    | false =>
      have hwrite : m.store.write faults lift body =
          (.ok a, ⟨w.table, m.store.version.next⟩) := by
        simp [Store.write, hbody, hconflict, Store.commit]
      rw [hwrite]
      exact ⟨[.begins k p, .runs k a], .commits k p a, run_commit hk hp, rfl, rfl⟩
    | true =>
      have hwrite : m.store.write faults lift body =
          (.error (lift (.conflict m.store.version m.store.version.next)), m.store.slipIn) := by
        simp [Store.write, hbody, hconflict, Store.commit, Store.slipIn,
          m.store.version.ne_next.symm]
      rw [hwrite]
      exact ⟨_, _, run_refuse hk hj hne hp, rfl, rfl⟩

end BusyStore

/-- However units of work overlap, the table is what the programs of those that were committed make
of it one after the other, with the answers they gave. A unit that has run is refused if another
unit was committed since it began, and otherwise it is committed on the table it began on. A write
of the store is a run of these steps. -/
theorem units_serializable {s : Store} {es : List (Event ε α)} {m : BusyStore ε α}
    (h : BusyStore.Run (.quiet s) es m) :
    Program.runAll s.table ((Event.committed es).map Prod.fst) =
        .ok ((Event.committed es).map Prod.snd, m.store.table) ∧
      (∀ k p base a copy, m.units k = some ⟨p, base, .ran a copy⟩ →
        ∃ before after m₀, es = before ++ .begins k p :: after ∧
          BusyStore.Run (.quiet s) before m₀ ∧ base = m₀.store.version ∧
          (∀ e ∈ after, e.unit = k → ∃ b, e = .runs k b) ∧
          ((∃ x m', BusyStore.Step m (.isRefused k x) m') ↔ Event.Overtaken k after) ∧
          (∀ x m', BusyStore.Step m (.isRefused k x) m' →
            x = .conflict base m.store.version ∧ m'.store = m.store) ∧
          ((∃ m', BusyStore.Step m (.commits k p a) m') ↔ ¬Event.Overtaken k after) ∧
          ∀ m', BusyStore.Step m (.commits k p a) m' → ∃ w, p.run m.store.table = .ok (a, w) ∧
            m'.store = ⟨w.table, m.store.version.next⟩) ∧
      ∀ k j, m.units k = none → m.units j = none → j ≠ k →
        ∀ (faults : Faults) (lift : StoreError → ε) (body : Work → Except ε (α × Work)),
          ∃ es' e, BusyStore.Run m (es' ++ [e]) ⟨(m.store.write faults lift body).2, m.units⟩ ∧
            e.unit = k ∧ e.outcome? lift = some (m.store.write faults lift body).1 := by
  have hm := h.consistent
  refine ⟨hm.serial, fun k p base a copy hu => ?_, fun k j hk hj hne faults lift body =>
    BusyStore.exists_run_write hk hj hne faults lift body⟩
  obtain ⟨before, after, hes, htraced⟩ := hm.traced k _ hu
  obtain ⟨m₀, hbefore⟩ := (hes ▸ h).exists_before
  have hversion := hm.version_eq_base_iff hes htraced
  have hovertaken := htraced.overtaken_iff
  refine ⟨before, after, m₀, hes, hbefore, ?_, htraced.since, ?_, ?_, ?_, ?_⟩
  · rw [hbefore.consistent.version]
    exact htraced.base
  · rw [hovertaken, Ne, ← hversion]
    constructor
    · rintro ⟨x, m', hstep⟩
      exact ((BusyStore.step_isRefused_iff hu).mp hstep).1
    · exact fun hne => ⟨_, _, (BusyStore.step_isRefused_iff hu).mpr ⟨hne, rfl, rfl⟩⟩
  · intro x m' hstep
    obtain ⟨-, rfl, rfl⟩ := (BusyStore.step_isRefused_iff hu).mp hstep
    exact ⟨rfl, rfl⟩
  · rw [hovertaken, not_not, ← hversion]
    constructor
    · rintro ⟨m', hstep⟩
      exact ((BusyStore.step_commits_iff hu).mp hstep).1
    · exact fun heq => ⟨_, (BusyStore.step_commits_iff hu).mpr ⟨heq, rfl⟩⟩
  · intro m' hstep
    obtain ⟨heq, rfl⟩ := (BusyStore.step_commits_iff hu).mp hstep
    obtain ⟨w, hrun, rfl⟩ : BusyStore.Current ⟨p, base, .ran a copy⟩ m.store.table :=
      htraced.current (hversion.mp heq)
    exact ⟨w, hrun, by rw [heq]⟩

/-- A unit that stores a root, and inside it another one that does so too and is committed first. -/
theorem units_serializable_nested :
    let p : Program StoreError Row := ⟨.unlimited, fun w => w.insert Dict.empty Interval.root⟩
    let r : Row := ⟨⟨1⟩, Interval.root, Dict.empty⟩
    let es : List (Event StoreError Row) :=
      [.begins 0 p, .begins 1 p, .runs 1 r, .commits 1 p r, .runs 0 r]
    ∃ m, BusyStore.Run (.quiet .empty) es m ∧
      Program.runAll Table.empty [p] = .ok ([r], m.store.table) ∧
      (∃ x m', BusyStore.Step m (.isRefused 0 x) m') ∧
      (∀ x m', BusyStore.Step m (.isRefused 0 x) m' →
        x = .conflict ⟨0⟩ ⟨1⟩ ∧ m'.store = m.store) ∧
      ¬∃ m', BusyStore.Step m (.commits 0 p r) m' := by
  intro p r es
  have hp : p.run Table.empty = .ok (r, ⟨(Table.empty.insert Dict.empty Interval.root).2,
    .unlimited⟩) := rfl
  have hopen := BusyStore.Run.nil.snoc (.begin (m := .quiet .empty) (k := 0) p rfl)
  have hinner := hopen.trans (BusyStore.run_commit (k := 1) rfl hp)
  have hrun := hinner.snoc (.run (k := 0) rfl hp)
  obtain ⟨hserial, hunits, -⟩ := units_serializable hrun
  obtain ⟨before, after, -, hes, -, -, -, hrefused, hconflict, hcommits, -⟩ :=
    hunits 0 p ⟨0⟩ r _ rfl
  have hafter : after = [.begins 1 p, .runs 1 r, .commits 1 p r, .runs 0 r] := by
    cases before with
    | nil => simpa using hes.symm
    | cons x before =>
      have htail : [.begins 1 p, .runs 1 r, .commits 1 p r, .runs 0 r] =
        before ++ .begins 0 p :: after := (List.cons.inj hes).2
      have hmem : .begins 0 p ∈ [Event.begins 1 p, .runs 1 r, .commits 1 p r, .runs 0 r] :=
        htail ▸ List.mem_append_right _ List.mem_cons_self
      simp at hmem
  have hovertaken : Event.Overtaken 0 after := ⟨1, p, r, by decide, by simp [hafter]⟩
  exact ⟨_, hrun, hserial, hrefused.mpr hovertaken, hconflict, fun h => hcommits.mp h hovertaken⟩

end FlatTree
