import FlatTree.Proofs.Bounds
import FlatTree.Proofs.Displacement

/-!
# How far the numbers of a change go

Bounds are added up and depths are counted on while a change is under way, and between its writes
the table is not well numbered: in the middle of a shift the left bounds have moved and the right
bounds have not. Here the changes are run again so that each table and each sum on the way can be
seen. From a table of `n` rows that pass the check no bound ever leaves the numbers from 1 to
`2 * n + 2`, no sum goes below `-2 * n`, and no depth goes beyond `n`, so that words of a fixed
width hold them all as long as they hold these.
-/

namespace FlatTree

/-- What can be seen of a change under way: the rows of the table as they are at some moment, a sum
or a difference of bounds, a depth that was counted on. -/
inductive Sight where
  | rows (stored : List Row)
  | sum (x : Int)
  | depth (d : Nat)

/-- A step and what is seen of it until it ends or fails. -/
structure Watched (α : Type) where
  seen : List Sight
  outcome : Except TreeError α

namespace Watched

variable {α β : Type}

instance : Monad Watched where
  pure a := ⟨[], .ok a⟩
  bind x f :=
    match x.outcome with
    | .ok a => ⟨x.seen ++ (f a).seen, (f a).outcome⟩
    | .error e => ⟨x.seen, .error e⟩

/-- A step in which no bound is computed and no table changes. -/
def unseen (x : Except TreeError α) : Watched α :=
  ⟨[], x⟩

def sum (x : Int) : Watched Int :=
  ⟨[.sum x], .ok x⟩

def depth (d : Nat) : Watched Nat :=
  ⟨[.depth d], .ok d⟩

/-- A write, unless it is refused: what is seen in the course of it, and the rows that it leaves. -/
def write (course : List Sight) : Except StoreError (α × Work) → Watched (α × Work)
  | .ok (a, w) => ⟨course ++ [.rows w.table.rows], .ok (a, w)⟩
  | .error e => ⟨[], .error (.store e)⟩

@[simp] theorem outcome_pure (a : α) : (pure a : Watched α).outcome = .ok a := rfl

@[simp] theorem outcome_bind (x : Watched α) (f : α → Watched β) :
    (x >>= f).outcome = x.outcome >>= fun a => (f a).outcome := by
  obtain ⟨seen, _ | a⟩ := x <;> rfl

@[simp] theorem outcome_unseen (x : Except TreeError α) : (unseen x).outcome = x := rfl

@[simp] theorem outcome_sum (x : Int) : (sum x).outcome = .ok x := rfl

@[simp] theorem outcome_depth (d : Nat) : (depth d).outcome = .ok d := rfl

@[simp] theorem outcome_write (course : List Sight) (x : Except StoreError (α × Work)) :
    (write course x).outcome = Work.lift x := by
  obtain _ | ⟨a, w⟩ := x <;> rfl

end Watched

/-- The course of one pass of a shift: one bound of each row that it reaches is added to, and at
every moment some rows have been dealt with and the others have not. -/
def Table.pass (t : Table) (side : Side) (s : Shift) : List Sight :=
  ((t.rows.filter fun r => s.start ≤ side.bound r.interval).map fun r =>
    .sum (side.bound r.interval + s.delta)) ++
  (List.range t.rows.length).map fun k => .rows ((t.shift side s).rows.take k ++ t.rows.drop k)

namespace Work

open Watched

/-! ## Changes that can be seen -/

def watchShift (w : Work) (s : Shift) : Watched Work := do
  let (_, w) ← write (w.table.pass .left s) (w.shift .left s)
  let (_, w) ← write (w.table.pass .right s) (w.shift .right s)
  pure w

def watchPlaceUnder (w : Work) (attributes : Attributes) (parent : Row) :
    Watched (Row × Work) := do
  let right ← sum (parent.interval.right + 1)
  let depth ← Watched.depth (parent.interval.depth + 1)
  let w ← w.watchShift (Shift.opening parent.interval.right)
  write [] (w.insert attributes ⟨parent.interval.right, right, depth⟩)

def watchInsertRoot (w : Work) (attributes : Attributes) : Watched (Row × Work) := do
  match ← unseen w.table.root? with
  | some root => unseen (throw (.rootAlreadyExists root.id))
  | none => write [] (w.insert attributes Interval.root)

def watchInsertUnder (w : Work) (attributes : Attributes) : Option NodeId → Watched (Row × Work)
  | some id =>
    match w.table.get? id with
    | some parent => w.watchPlaceUnder attributes parent
    | none => unseen (throw (.invalidParent (some id)))
  | none => do
    match ← unseen w.table.root? with
    | some root => w.watchPlaceUnder attributes root
    | none => w.watchInsertRoot attributes

def watchDeleteNode (w : Work) (id : NodeId) (withDescendants : Bool) : Watched (Nat × Work) := do
  let r ← unseen (w.table.require id)
  let width ← sum (r.interval.right - r.interval.left)
  let span ← sum (width + 1)
  if 2 < span ∧ withDescendants = false then
    let inner ← sum (width - 1)
    unseen (throw (.hasChildren id (inner.tdiv 2)))
  else
    let delta ← sum (-span)
    let (removed, w) ← write [] (w.delete (Filter.within r.interval.left r.interval.right))
    let rows := span.tdiv 2
    if (removed : Int) ≠ rows then
      unseen (throw (.corruptTree
        (s!"interval {r.interval.text} of {id.text} spans {rows} nodes " ++
          s!"but {removed} were stored")))
    else
      let w ← w.watchShift ⟨r.interval.left, delta⟩
      pure (removed, w)

private theorem outcome_watchShift (w : Work) (s : Shift) :
    (w.watchShift s).outcome = w.applyShift s := by
  simp only [watchShift, applyShift, outcome_bind, outcome_write, outcome_pure]
  rfl

private theorem outcome_watchPlaceUnder (w : Work) (attributes : Attributes) (parent : Row) :
    (w.watchPlaceUnder attributes parent).outcome = w.placeUnder attributes parent := by
  simp only [watchPlaceUnder, outcome_bind, outcome_sum, outcome_depth, outcome_watchShift,
    outcome_write]
  rfl

private theorem outcome_watchInsertRoot (w : Work) (attributes : Attributes) :
    (w.watchInsertRoot attributes).outcome = w.insertRoot attributes := by
  simp only [watchInsertRoot, insertRoot, outcome_bind, outcome_unseen]
  refine congrArg (w.table.root? >>= ·) (funext fun root? => ?_)
  cases root? with
  | none => exact outcome_write ..
  | some root => rfl

theorem outcome_watchInsertUnder (w : Work) (attributes : Attributes) (parent : Option NodeId) :
    (w.watchInsertUnder attributes parent).outcome = w.insertUnder attributes parent := by
  cases parent with
  | some id =>
    simp only [watchInsertUnder, insertUnder]
    cases w.table.get? id with
    | some parent => exact outcome_watchPlaceUnder ..
    | none => rfl
  | none =>
    simp only [watchInsertUnder, insertUnder, outcome_bind, outcome_unseen]
    refine congrArg (w.table.root? >>= ·) (funext fun root? => ?_)
    cases root? with
    | some root => exact outcome_watchPlaceUnder ..
    | none => exact outcome_watchInsertRoot ..

theorem outcome_watchDeleteNode (w : Work) (id : NodeId) (withDescendants : Bool) :
    (w.watchDeleteNode id withDescendants).outcome = w.deleteNode id withDescendants := by
  have hok : ∀ {α β : Type} (a : α) (f : α → Except TreeError β), (Except.ok a >>= f) = f a :=
    fun _ _ => rfl
  simp only [watchDeleteNode, deleteNode, outcome_bind, outcome_unseen, outcome_sum, hok]
  refine congrArg (w.table.require id >>= ·) (funext fun r => ?_)
  have hspan : r.interval.right - r.interval.left + 1 = r.interval.span := rfl
  rw [hspan, Interval.removal]
  by_cases hkeep : 2 < r.interval.span ∧ withDescendants = false
  · rw [if_pos hkeep, if_pos hkeep]
    rfl
  · rw [if_neg hkeep, if_neg hkeep]
    simp only [outcome_bind, outcome_sum, outcome_write, hok]
    refine congrArg (lift (w.delete _) >>= ·) (funext fun p => ?_)
    simp only [Removal.rows, hspan]
    by_cases hrows : (p.1 : Int) ≠ r.interval.span.tdiv 2
    · rw [if_pos hrows, if_pos hrows]
      rfl
    · rw [if_neg hrows, if_neg hrows]
      simp only [outcome_bind, outcome_watchShift]
      rfl

end Work

/-! ## What is seen -/

namespace Watched

variable {α β : Type}

/-- All that is seen of a step is good, and what it ends with is as it should be. -/
structure Shows (good : Sight → Prop) (x : Watched α) (post : α → Prop) : Prop where
  seen : ∀ v ∈ x.seen, good v
  post : ∀ a, x.outcome = .ok a → post a

variable {good : Sight → Prop} {post : α → Prop} {post' : β → Prop}

theorem Shows.weaken {x : Watched α} (h : Shows good x post) : Shows good x fun _ => True :=
  ⟨h.seen, fun _ _ => trivial⟩

theorem Shows.bind {x : Watched α} {f : α → Watched β} (h : Shows good x post)
    (hf : ∀ a, post a → Shows good (f a) post') : Shows good (x >>= f) post' := by
  obtain ⟨seen, e | a⟩ := x
  · exact ⟨h.seen, fun _ he => nomatch he⟩
  · have hrest := hf a (h.post a rfl)
    refine ⟨fun v hv => ?_, hrest.post⟩
    rcases List.mem_append.mp hv with hv | hv
    · exact h.seen v hv
    · exact hrest.seen v hv

theorem shows_pure {a : α} (h : post a) : Shows good (pure a) post :=
  ⟨fun _ hv => (nomatch hv), fun _ ha => by cases ha; exact h⟩

theorem shows_unseen {x : Except TreeError α} (h : ∀ a, x = .ok a → post a) :
    Shows good (unseen x) post :=
  ⟨fun _ hv => (nomatch hv), h⟩

theorem shows_throw (e : TreeError) : Shows good (unseen (throw e)) post :=
  shows_unseen fun _ he => nomatch he

theorem shows_sum {x : Int} (h : good (.sum x)) : Shows good (sum x) (· = x) :=
  ⟨fun _ hv => List.mem_singleton.mp hv ▸ h, fun _ ha => by cases ha; rfl⟩

theorem shows_depth {d : Nat} (h : good (.depth d)) : Shows good (depth d) (· = d) :=
  ⟨fun _ hv => List.mem_singleton.mp hv ▸ h, fun _ ha => by cases ha; rfl⟩

theorem shows_write {w : Work} {course : List Sight} {x : Except StoreError (α × Work)}
    {post : α × Work → Prop} (h : w.Does (Work.lift x) post) (hcourse : ∀ v ∈ course, good v)
    (hrows : ∀ p, post p → good (.rows p.2.table.rows)) : Shows good (write course x) post := by
  obtain e | p := x
  · exact shows_unseen fun _ he => nomatch he
  · refine ⟨fun v hv => ?_, fun a ha => by cases ha; exact h⟩
    rcases List.mem_append.mp hv with hv | hv
    · exact hcourse v hv
    · exact List.mem_singleton.mp hv ▸ hrows p h

/-- If a step ends, the rows of the table that it ends with have been seen. -/
def Ends (x : Watched α) (table : α → Table) : Prop :=
  ∀ a, x.outcome = .ok a → .rows (table a).rows ∈ x.seen

theorem Ends.bind {x : Watched α} {f : α → Watched β} {table : β → Table}
    (hf : ∀ a, Ends (f a) table) : Ends (x >>= f) table := by
  obtain ⟨seen, e | a⟩ := x
  · exact fun _ he => nomatch he
  · exact fun b hb => List.mem_append_right _ (hf a b hb)

theorem Ends.bind_pure {x : Watched α} {f : α → β} {table : β → Table}
    (h : Ends x fun a => table (f a)) : Ends (x >>= fun a => pure (f a)) table := by
  obtain ⟨seen, e | a⟩ := x
  · exact fun _ he => nomatch he
  · rintro _ ⟨⟩
    exact List.mem_append_left _ (h a rfl)

theorem ends_throw (e : TreeError) (table : α → Table) : Ends (unseen (throw e)) table :=
  fun _ he => nomatch he

theorem ends_write (course : List Sight) (x : Except StoreError (α × Work)) :
    Ends (write course x) (·.2.table) := by
  obtain e | p := x
  · exact fun _ he => nomatch he
  · rintro _ ⟨⟩
    exact List.mem_append_right _ (List.mem_singleton.mpr rfl)

end Watched

/-- One of the numbers from 1 to two more than the bounds of `n` rows need. -/
def Near (n : Nat) (x : Int) : Prop :=
  1 ≤ x ∧ x ≤ 2 * n + 2

private theorem near_of_mem_bounds {n : Nat} {i : Interval}
    (h : ∀ side : Side, Near n (side.bound i)) {b : Int} (hb : b ∈ i.bounds) : Near n b := by
  rcases List.mem_pair.mp hb with rfl | rfl
  · exact h .left
  · exact h .right

private theorem near_of_mem_bounds_apply {n : Nat} {s : Shift} {i : Interval}
    (h : ∀ side : Side, Near n (s.bound (side.bound i))) {b : Int}
    (hb : b ∈ (s.apply i).bounds) : Near n b := by
  refine near_of_mem_bounds (fun side => ?_) hb
  cases side with
  | left => exact h .left
  | right => exact h .right

/-- Seen on the way from a table of `n` rows that pass the check. -/
def Sight.Within (n : Nat) : Sight → Prop
  | .rows stored => ∀ r ∈ stored, ∀ side : Side, Near n (side.bound r.interval)
  | .sum x => -(2 * n) ≤ x ∧ x ≤ 2 * n + 2
  | .depth d => d ≤ n

namespace Work

open Watched

variable {n : Nat} {w : Work}

private theorem within_pass {t : Table} {side : Side} {s : Shift}
    (h : Sight.Within n (.rows t.rows)) (hmoved : Sight.Within n (.rows (t.shift side s).rows)) :
    ∀ v ∈ t.pass side s, Sight.Within n v := by
  intro v hv
  rcases List.mem_append.mp hv with hv | hv
  · obtain ⟨r, hr, rfl⟩ := List.mem_map.mp hv
    obtain ⟨hr, hle⟩ := List.mem_filter.mp hr
    have hnear := hmoved _ (List.mem_map_of_mem hr) side
    have hbound : side.bound (s.move side r.interval) = s.bound (side.bound r.interval) := by
      cases side <;> rfl
    rw [hbound, Shift.bound_of_le (of_decide_eq_true hle)] at hnear
    exact ⟨by have := hnear.1; omega, hnear.2⟩
  · obtain ⟨k, -, rfl⟩ := List.mem_map.mp hv
    intro r hr
    rcases List.mem_append.mp hr with hr | hr
    · exact hmoved r (List.mem_of_mem_take hr)
    · exact h r (List.mem_of_mem_drop hr)

/-- Both passes of a shift, and the table between them: there a row has its old right bound beside
its new left bound. -/
theorem shows_watchShift {s : Shift} (h : ∀ r ∈ w.table.rows, ∀ side : Side,
    Near n (side.bound r.interval) ∧ Near n (s.bound (side.bound r.interval))) :
    Shows (Sight.Within n) (w.watchShift s) fun w' => Sight.Within n (.rows w'.table.rows) := by
  have hbefore : Sight.Within n (.rows w.table.rows) := fun r hr side => (h r hr side).1
  have hleft : Sight.Within n (.rows (w.table.shift .left s).rows) := by
    intro r' hr'
    obtain ⟨r, hr, rfl⟩ := List.mem_map.mp hr'
    rintro (_ | _)
    · exact (h r hr .left).2
    · exact (h r hr .right).1
  have hboth : Sight.Within n (.rows ((w.table.shift .left s).shift .right s).rows) := by
    intro r'' hr''
    obtain ⟨r', hr', rfl⟩ := List.mem_map.mp hr''
    obtain ⟨r, hr, rfl⟩ := List.mem_map.mp hr'
    rintro (_ | _)
    · exact (h r hr .left).2
    · exact (h r hr .right).2
  refine (shows_write (does_shift w .left s) (within_pass hbefore hleft)
    fun p hp => hp.1 ▸ hleft).bind fun p hp => ?_
  refine (shows_write (does_shift p.2 .right s) ?_ fun q hq => ?_).bind fun q hq => shows_pure ?_
  · rw [hp.1]
    exact within_pass hleft hboth
  · rw [hq.1, hp.1]
    exact hboth
  · rw [hq.1, hp.1]
    exact hboth

variable {summary : Summary}

theorem mem_of_root? {t : Table} {r : Row} (h : t.root? = .ok (some r)) : r ∈ t.rows := by
  rw [Table.root?] at h
  split at h
  · cases h
  · next hfind =>
    cases h
    exact (Table.mem_find.mp (hfind ▸ List.mem_singleton.mpr rfl)).1
  · cases h

theorem bounds_of_check (h : Numbering.check w.table.rows = .ok summary) {r : Row}
    (hr : r ∈ w.table.rows) (side : Side) :
    1 ≤ side.bound r.interval ∧ side.bound r.interval ≤ 2 * w.table.size := by
  apply ((Numbering.packed_of_check h).mem_iff _).mp
  refine List.mem_flatMap.mpr ⟨r, hr, ?_⟩
  cases side <;> simp [Interval.bounds, Side.bound]

theorem within_of_check (h : Numbering.check w.table.rows = .ok summary) :
    Sight.Within w.table.size (.rows w.table.rows) := by
  intro r hr side
  have hbound := bounds_of_check h hr side
  exact ⟨hbound.1, by omega⟩

private theorem within_insert {t : Table} (h : Sight.Within n (.rows t.rows)) {i : Interval}
    (hi : ∀ side : Side, Near n (side.bound i)) (attributes : Attributes) :
    Sight.Within n (.rows (t.insert attributes i).2.rows) := by
  intro r hr
  rcases Table.mem_putRow hr with rfl | hr
  · exact hi
  · exact h r hr

/-- The bounds of a row, and where the gap for a child of `p` moves them to. -/
theorem near_opening (h : Numbering.check w.table.rows = .ok summary) {p r : Row}
    (hp : p ∈ w.table.rows) (hr : r ∈ w.table.rows) (side : Side) :
    Near w.table.size (side.bound r.interval) ∧
      Near w.table.size ((Shift.opening p.interval.right).bound (side.bound r.interval)) := by
  have hbound := bounds_of_check h hr side
  have hright : 1 ≤ p.interval.right := (bounds_of_check h hp .right).1
  refine ⟨within_of_check h r hr side, ?_⟩
  rw [Shift.bound, Near]
  split
  · simp only [Shift.opening]
    omega
  · omega

private theorem shows_watchPlaceUnder (h : Numbering.check w.table.rows = .ok summary)
    {parent : Row} (hparent : parent ∈ w.table.rows) (attributes : Attributes) :
    Shows (Sight.Within w.table.size) (w.watchPlaceUnder attributes parent) fun _ => True := by
  have hright : 1 ≤ parent.interval.right ∧ parent.interval.right ≤ 2 * w.table.size :=
    bounds_of_check h hparent .right
  refine (shows_sum ⟨by omega, by omega⟩).bind fun right hplus => ?_
  refine (shows_depth ((Numbering.packed_of_check h).depth _ hparent)).bind fun depth _ => ?_
  refine (shows_watchShift fun r hr side => near_opening h hparent hr side).bind fun w' hw' => ?_
  refine (shows_write (does_insert w' attributes _) (List.forall_mem_nil _) fun p hp => ?_).weaken
  rw [hp.2.1]
  refine within_insert hw' (fun side => ?_) attributes
  cases side <;> simp only [Side.bound, Near] <;> omega

private theorem shows_watchInsertRoot (h : Numbering.check w.table.rows = .ok summary)
    (attributes : Attributes) :
    Shows (Sight.Within w.table.size) (w.watchInsertRoot attributes) fun _ => True := by
  have hroot : Shows (Sight.Within w.table.size) (unseen w.table.root?) fun _ => True :=
    shows_unseen fun _ _ => trivial
  refine hroot.bind fun root? _ => ?_
  cases root? with
  | some root => exact shows_throw _
  | none =>
    refine (shows_write (does_insert w attributes _) (List.forall_mem_nil _) fun p hp => ?_).weaken
    rw [hp.2.1]
    refine within_insert (within_of_check h) (fun side => ?_) attributes
    cases side <;> simp only [Side.bound, Near, Interval.root] <;> omega

theorem shows_watchInsertUnder (h : Numbering.check w.table.rows = .ok summary)
    (attributes : Attributes) (parent : Option NodeId) :
    Shows (Sight.Within w.table.size) (w.watchInsertUnder attributes parent) fun _ => True := by
  cases parent with
  | some id =>
    simp only [watchInsertUnder]
    cases hget : w.table.get? id with
    | some parent =>
      exact shows_watchPlaceUnder h (Table.get?_eq_some_iff.mp hget).1 attributes
    | none => exact shows_throw _
  | none =>
    refine (shows_unseen fun root? hroot? => hroot?).bind fun root? hroot? => ?_
    cases root? with
    | some root => exact shows_watchPlaceUnder h (mem_of_root? hroot?) attributes
    | none => exact shows_watchInsertRoot h attributes

theorem left_lt_right_of_check (h : Numbering.check w.table.rows = .ok summary) {r : Row}
    (hr : r ∈ w.table.rows) : r.interval.left < r.interval.right := by
  obtain ⟨o, ho, -⟩ := Table.exists_outline_of_check h 0
  exact Table.bounds_of_mem ho hr

/-- After the node has gone with all that is below it, no bound is left in its interval. -/
theorem apart_of_delete (h : Numbering.check w.table.rows = .ok summary) {p : Row}
    (hp : p ∈ w.table.rows) {r : Row}
    (hr : r ∈ (w.table.delete (Filter.within p.interval.left p.interval.right)).rows)
    (side : Side) :
    side.bound r.interval < p.interval.left ∨ p.interval.right < side.bound r.interval := by
  obtain ⟨o, ho, -⟩ := Table.exists_outline_of_check h 0
  obtain ⟨hr, hout⟩ := List.mem_filter.mp hr
  have hwithin : (Filter.within p.interval.left p.interval.right).accepts r.interval = true ↔
      p.interval.left ≤ r.interval.left ∧ r.interval.right ≤ p.interval.right :=
    Grove.inRange_iff (e := (r.item, r.interval))
  rw [Bool.not_eq_true', ← Bool.not_eq_true, hwithin] at hout
  have hr' := Table.bounds_of_mem ho hr
  have hp' := Table.bounds_of_mem ho hp
  have hne : r ≠ p := fun heq => hout (heq ▸ ⟨Int.le_refl _, Int.le_refl _⟩)
  have hapart := Table.apart_of_mem ho hr hp hne
  simp only [Grove.Apart] at hapart
  cases side <;> simp only [Side.bound] <;> omega

/-- The bounds of a row that stays, and where they are when the gap that `p` leaves is closed. -/
theorem near_closing (h : Numbering.check w.table.rows = .ok summary) {p : Row}
    (hp : p ∈ w.table.rows) {r : Row}
    (hr : r ∈ (w.table.delete (Filter.within p.interval.left p.interval.right)).rows)
    (side : Side) :
    Near w.table.size (side.bound r.interval) ∧
      Near w.table.size
        (Shift.bound ⟨p.interval.left, -p.interval.span⟩ (side.bound r.interval)) := by
  have hnear := within_of_check h r (List.mem_filter.mp hr).1 side
  have hleft : 1 ≤ p.interval.left := (bounds_of_check h hp .left).1
  have hlt := left_lt_right_of_check h hp
  refine ⟨hnear, ?_⟩
  rcases apart_of_delete h hp hr side with hbefore | hbehind
  · rwa [Shift.bound_of_lt hbefore]
  · have hle := hnear.2
    rw [Shift.bound_of_le (by dsimp only; omega), Interval.span]
    exact ⟨by dsimp only; omega, by dsimp only; omega⟩

theorem shows_watchDeleteNode (h : Numbering.check w.table.rows = .ok summary) (id : NodeId)
    (withDescendants : Bool) :
    Shows (Sight.Within w.table.size) (w.watchDeleteNode id withDescendants) fun _ => True := by
  refine (shows_unseen fun p hp => (Table.require_eq_ok_iff.mp hp).1).bind fun p hp => ?_
  have hleft : 1 ≤ p.interval.left ∧ p.interval.left ≤ 2 * w.table.size :=
    bounds_of_check h hp .left
  have hright : 1 ≤ p.interval.right ∧ p.interval.right ≤ 2 * w.table.size :=
    bounds_of_check h hp .right
  have hlt := left_lt_right_of_check h hp
  refine (shows_sum ⟨by omega, by omega⟩).bind fun width hwidth => ?_
  refine (shows_sum ⟨by omega, by omega⟩).bind fun span hspan => ?_
  split
  · exact (shows_sum ⟨by omega, by omega⟩).bind fun inner _ => shows_throw _
  · refine (shows_sum ⟨by omega, by omega⟩).bind fun delta hdelta => ?_
    obtain rfl : delta = -p.interval.span := by rw [Interval.span]; omega
    have hrest : Sight.Within w.table.size
        (.rows (w.table.delete (Filter.within p.interval.left p.interval.right)).rows) :=
      fun r hr side => (near_closing h hp hr side).1
    refine (shows_write (does_delete w _) (List.forall_mem_nil _)
      fun q hq => hq.2.1 ▸ hrest).bind fun q hq => ?_
    dsimp only
    split
    · exact shows_throw _
    · refine (shows_watchShift fun r hr side => ?_).bind fun w' _ => shows_pure trivial
      exact near_closing h hp (hq.2.1 ▸ hr) side

/-! ## Ends of changes -/

private theorem ends_watchShift (w : Work) (s : Shift) : Ends (w.watchShift s) (·.table) :=
  Ends.bind fun _ => Ends.bind_pure (ends_write _ _)

private theorem ends_watchPlaceUnder (w : Work) (attributes : Attributes) (parent : Row) :
    Ends (w.watchPlaceUnder attributes parent) (·.2.table) :=
  Ends.bind fun _ => Ends.bind fun _ => Ends.bind fun _ => ends_write _ _

private theorem ends_watchInsertRoot (w : Work) (attributes : Attributes) :
    Ends (w.watchInsertRoot attributes) (·.2.table) := by
  refine Ends.bind fun root? => ?_
  cases root? with
  | some root => exact ends_throw _ _
  | none => exact ends_write _ _

theorem ends_watchInsertUnder (w : Work) (attributes : Attributes) (parent : Option NodeId) :
    Ends (w.watchInsertUnder attributes parent) (·.2.table) := by
  cases parent with
  | some id =>
    simp only [watchInsertUnder]
    cases w.table.get? id with
    | some parent => exact ends_watchPlaceUnder _ _ _
    | none => exact ends_throw _ _
  | none =>
    refine Ends.bind fun root? => ?_
    cases root? with
    | some root => exact ends_watchPlaceUnder _ _ _
    | none => exact ends_watchInsertRoot _ _

theorem ends_watchDeleteNode (w : Work) (id : NodeId) (withDescendants : Bool) :
    Ends (w.watchDeleteNode id withDescendants) (·.2.table) := by
  refine Ends.bind fun r => Ends.bind fun width => Ends.bind fun span => ?_
  split
  · exact Ends.bind fun inner => ends_throw _ _
  · refine Ends.bind fun delta => Ends.bind fun p => ?_
    dsimp only
    split
    · exact ends_throw _ _
    · exact Ends.bind_pure (ends_watchShift _ _)

end Work

/-- The step `x`, of which all is seen, is the step `y`. From a table of `n` rows it stays in the
range of words: of those with 64 bits and a sign as long as they hold `2 * n + 2`, and of those with
32 bits and no sign as long as they hold `n`. -/
structure Watched.StaysInRange {α : Type} (n : Nat) (x : Watched (α × Work))
    (y : Except TreeError (α × Work)) : Prop where
  outcome : x.outcome = y
  ends : ∀ p, y = .ok p → .rows p.2.table.rows ∈ x.seen
  bounds : ∀ rows, .rows rows ∈ x.seen → ∀ r ∈ rows, ∀ b : Int, b ∈ r.interval.bounds →
    1 ≤ b ∧ b ≤ 2 * n + 2
  sums : 2 * (n : Int) + 2 ≤ 0x7fffffffffffffff →
    ∀ z, .sum z ∈ x.seen → -0x8000000000000000 ≤ z ∧ z ≤ 0x7fffffffffffffff
  depths : n ≤ 0xffffffff → ∀ d, .depth d ∈ x.seen → d ≤ 0xffffffff

theorem Watched.staysInRange {α : Type} {n : Nat} {x : Watched (α × Work)}
    {y : Except TreeError (α × Work)} (houtcome : x.outcome = y) (hends : x.Ends (·.2.table))
    (h : x.Shows (Sight.Within n) fun _ => True) : x.StaysInRange n y where
  outcome := houtcome
  ends := houtcome ▸ hends
  bounds _ ht r hr _ hb := near_of_mem_bounds (h.seen _ ht r hr) hb
  sums := by
    intro hn z hz
    have hwithin : -(2 * (n : Int)) ≤ z ∧ z ≤ 2 * n + 2 := h.seen _ hz
    omega
  depths := fun hn d hd => Nat.le_trans (h.seen _ hd) hn

/-- What a change needs is there: it stays in the range of words, the shifts that open and close
its gaps take no bound of a whole interval out of the numbers up to `2 * n + 2`, and one more can be
counted to every depth. -/
structure Work.Headroom (w : Work) : Prop where
  insert : ∀ attributes parent, (w.watchInsertUnder attributes parent).StaysInRange w.table.size
    (w.insertUnder attributes parent)
  insertRoot : ∀ attributes, (w.watchInsertRoot attributes).StaysInRange w.table.size
    (w.insertRoot attributes)
  delete : ∀ id withDescendants, (w.watchDeleteNode id withDescendants).StaysInRange w.table.size
    (w.deleteNode id withDescendants)
  opening : ∀ p ∈ w.table.rows, ∀ r ∈ w.table.rows,
    ∀ b ∈ ((Shift.opening p.interval.lastChild.left).apply r.interval).bounds,
      1 ≤ b ∧ b ≤ 2 * (w.table.size : Int) + 2
  closing : ∀ p ∈ w.table.rows, ∀ withDescendants removal,
    p.interval.removal withDescendants = .ok removal →
      ∀ r ∈ (w.table.delete (Filter.within removal.left removal.right)).rows,
        ∀ b ∈ (removal.shift.apply r.interval).bounds,
          1 ≤ b ∧ b ≤ 2 * (w.table.size : Int) + 2
  depth : w.table.size ≤ 0xffffffff → ∀ r ∈ w.table.rows, r.interval.depth + 1 ≤ 0xffffffff

theorem Work.headroom_of_check {w : Work} {summary : Summary}
    (h : Numbering.check w.table.rows = .ok summary) : w.Headroom where
  insert attributes parent :=
    Watched.staysInRange (w.outcome_watchInsertUnder attributes parent)
      (w.ends_watchInsertUnder attributes parent) (shows_watchInsertUnder h attributes parent)
  insertRoot attributes :=
    Watched.staysInRange (w.outcome_watchInsertRoot attributes)
      (w.ends_watchInsertRoot attributes) (shows_watchInsertRoot h attributes)
  delete id withDescendants :=
    Watched.staysInRange (w.outcome_watchDeleteNode id withDescendants)
      (w.ends_watchDeleteNode id withDescendants) (shows_watchDeleteNode h id withDescendants)
  opening _ hp _ hr _ hb :=
    near_of_mem_bounds_apply (fun side => (near_opening h hp hr side).2) hb
  closing := by
    intro p hp withDescendants removal hremoval r hr b hb
    rw [Interval.removal] at hremoval
    split at hremoval
    · cases hremoval
    · cases hremoval
      exact near_of_mem_bounds_apply (fun side => (near_closing h hp hr side).2) hb
  depth hsize r hr := Nat.le_trans ((Numbering.packed_of_check h).depth r hr) hsize

/-- Rows that pass the check have the numbers from 1 to twice their count for bounds, each once. A
change of them passes no bound by more than two numbers, in whatever table it comes to on the way,
and so no sum of bounds and no depth leaves the range of its words before the count of rows does. -/
theorem checked_rows_leave_headroom :
    (∀ (rows : List Row) (summary : Summary), Numbering.check rows = .ok summary →
      Numbering.Packed rows) ∧
    ∀ (w : Work) (summary : Summary), Numbering.check w.table.rows = .ok summary → w.Headroom :=
  ⟨fun _ _ => Numbering.packed_of_check, fun _ _ => Work.headroom_of_check⟩

/-- Four nodes have the numbers up to 8 for bounds; those of a new child and of a subtree that goes
stay below 11. -/
theorem checked_rows_leave_headroom_four_nodes :
    let w := Work.mk Table.fourNodes Quota.unlimited
    w.table.size = 4 ∧ (∃ summary, Numbering.check w.table.rows = .ok summary) ∧
      Numbering.Packed w.table.rows ∧ w.Headroom ∧
      ∀ r ∈ w.table.rows, r.interval.depth + 1 ≤ 0xffffffff := by
  intro w
  have hsize : w.table.size = 4 := rfl
  obtain ⟨summary, hcheck⟩ : ∃ summary, Numbering.check w.table.rows = .ok summary :=
    Table.sound_fourNodes.1
  have hroom := checked_rows_leave_headroom.2 w summary hcheck
  exact ⟨hsize, ⟨summary, hcheck⟩, checked_rows_leave_headroom.1 w.table.rows summary hcheck,
    hroom, hroom.depth (by rw [hsize]; decide)⟩

end FlatTree
