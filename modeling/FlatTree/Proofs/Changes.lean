import FlatTree.Hierarchy.Change
import FlatTree.Proofs.Drawing

/-!
# Units of work as changes of a tree

Each change of a hierarchy, run on a table that draws an outline, answers what the change of the
outline answers and leaves a table that draws the new outline. The only other end it can come to is
a write that the store refuses, and a store refuses none unless it is told to.
-/

namespace FlatTree

namespace Work

variable {α β : Type}

/-- The step ends well and then `post` holds, unless the store refuses a write. -/
def Does (w : Work) (x : Except TreeError α) (post : α → Prop) : Prop :=
  match x with
  | .ok a => post a
  | .error e => w.quota ≠ Quota.unlimited ∧ ∃ message, e = .store (.backend message)

/-- A unit of work of which the store refuses nothing goes on like that. -/
def Willing (w w' : Work) : Prop :=
  w.quota = Quota.unlimited → w'.quota = Quota.unlimited

theorem Willing.trans {w w' w'' : Work} (h : w.Willing w') (h' : w'.Willing w'') :
    w.Willing w'' :=
  fun hq => h' (h hq)

theorem Does.imp {w : Work} {x : Except TreeError α} {post post' : α → Prop} (h : w.Does x post)
    (hpost : ∀ a, post a → post' a) : w.Does x post' := by
  cases x with
  | error e => exact h
  | ok a => exact hpost a h

theorem Does.bind {w : Work} {x : Except TreeError α} {f : α → Except TreeError β}
    {post : α → Prop} {post' : β → Prop} (h : w.Does x post)
    (hf : ∀ a, post a → w.Does (f a) post') : w.Does (x >>= f) post' := by
  cases x with
  | error e => exact h
  | ok a => exact hf a h

theorem Does.of_willing {w w' : Work} {x : Except TreeError α} {post : α → Prop}
    (h : w'.Does x post) (hw : w.Willing w') : w.Does x post := by
  cases x with
  | error e => exact ⟨fun hq => h.1 (hw hq), h.2⟩
  | ok a => exact h

theorem Does.exists_ok {w : Work} {x : Except TreeError α} {post : α → Prop} (h : w.Does x post)
    (hq : w.quota = Quota.unlimited) : ∃ a, x = .ok a ∧ post a := by
  cases x with
  | error e => exact absurd hq h.1
  | ok a => exact ⟨a, rfl, h⟩

/-! ## Writes -/

theorem spend_cases (message : String) (n : Option Nat) :
    (∃ m, spend message n = .ok m ∧ (n = none → m = none)) ∨
      (n ≠ none ∧ spend message n = .error (.backend message)) := by
  rcases n with _ | _ | n
  · exact .inl ⟨none, rfl, fun _ => rfl⟩
  · exact .inr ⟨by simp, rfl⟩
  · exact .inl ⟨some n, rfl, (nomatch ·)⟩

theorem does_insert (w : Work) (attributes : Attributes) (i : Interval) :
    w.Does (lift (w.insert attributes i)) fun p =>
      p.1 = (w.table.insert attributes i).1 ∧ p.2.table = (w.table.insert attributes i).2 ∧
        w.Willing p.2 := by
  rcases spend_cases "insert refused" w.quota.inserts with ⟨m, hm, hn⟩ | ⟨hn, hm⟩
  · simp only [insert, hm, bind, Except.bind, pure, Except.pure]
    refine ⟨rfl, rfl, fun hq => ?_⟩
    rw [hq] at hn ⊢
    exact congrArg (Quota.mk · none none) (hn rfl)
  · simp only [insert, hm, bind, Except.bind]
    exact ⟨fun hq => hn (by rw [hq]; rfl), _, rfl⟩

theorem does_shift (w : Work) (side : Side) (s : Shift) :
    w.Does (lift (w.shift side s)) fun p => p.2.table = w.table.shift side s ∧ w.Willing p.2 := by
  rcases spend_cases "shift refused" w.quota.shifts with ⟨m, hm, hn⟩ | ⟨hn, hm⟩
  · simp only [shift, hm, bind, Except.bind, pure, Except.pure]
    refine ⟨rfl, fun hq => ?_⟩
    rw [hq] at hn ⊢
    exact congrArg (Quota.mk none · none) (hn rfl)
  · simp only [shift, hm, bind, Except.bind]
    exact ⟨fun hq => hn (by rw [hq]; rfl), _, rfl⟩

theorem does_delete (w : Work) (f : Filter) :
    w.Does (lift (w.delete f)) fun p =>
      p.1 = w.table.count f ∧ p.2.table = w.table.delete f ∧ w.Willing p.2 := by
  rcases spend_cases "delete refused" w.quota.deletes with ⟨m, hm, hn⟩ | ⟨hn, hm⟩
  · simp only [delete, hm, bind, Except.bind, pure, Except.pure]
    refine ⟨rfl, rfl, fun hq => ?_⟩
    rw [hq] at hn ⊢
    exact congrArg (Quota.mk none none) (hn rfl)
  · simp only [delete, hm, bind, Except.bind]
    exact ⟨fun hq => hn (by rw [hq]; rfl), _, rfl⟩

theorem does_applyShift (w : Work) (s : Shift) :
    w.Does (w.applyShift s) fun w' => w'.table = w.table.applyShift s ∧ w.Willing w' := by
  refine (does_shift w .left s).bind fun p hp => ?_
  refine Does.bind ((does_shift p.2 .right s).of_willing hp.2) fun p' hp' => ?_
  exact ⟨by rw [hp'.1, hp.1]; rfl, hp.2.trans hp'.2⟩

theorem does_placeUnder (w : Work) (attributes : Attributes) (parent : Row) :
    w.Does (w.placeUnder attributes parent) fun p =>
      p.1 = (w.table.placeUnder attributes parent).1 ∧
        p.2.table = (w.table.placeUnder attributes parent).2 ∧ w.Willing p.2 := by
  refine (does_applyShift w _).bind fun w' hw' => ?_
  refine ((does_insert w' attributes _).of_willing hw'.2).imp fun p hp => ?_
  rw [hw'.1] at hp
  exact ⟨hp.1, hp.2.1, hw'.2.trans hp.2.2⟩

/-- Of a store that refuses nothing, as an equation. -/
theorem placeUnder_unlimited (t : Table) (attributes : Attributes) (parent : Row) :
    (Work.mk t Quota.unlimited).placeUnder attributes parent =
      .ok ((t.placeUnder attributes parent).1,
        ⟨(t.placeUnder attributes parent).2, Quota.unlimited⟩) :=
  rfl

/-! ## Changes -/

/-- What a change of the table does, told by the same change of the outline: the same error before
any write, or else the new outline drawn, with answers that agree. -/
def Matches (w : Work) (agree : Table → α → β → Prop) (x : Except TreeError (α × Work)) :
    Except TreeError (β × Outline) → Prop
  | .error e => x = .error e
  | .ok (b, o) => w.Does x fun p => agree p.2.table p.1 b ∧ p.2.table.Draws o ∧ w.Willing p.2

/-- A row is stored and has the item it should have. -/
def Stored (t : Table) (r : Row) (x : Item) : Prop :=
  r ∈ t.rows ∧ r.item = x

variable {w : Work} {o : Outline}

theorem mem_rows_insert (t : Table) (attributes : Attributes) (i : Interval) :
    (t.insert attributes i).1 ∈ (t.insert attributes i).2.rows := by
  simp only [Table.insert]
  generalize t.rows = rows
  induction rows with
  | nil => simp [Table.putRow]
  | cons r rows ih =>
    simp only [Table.putRow]
    split
    · exact List.mem_cons_self
    · split
      · exact List.mem_cons_self
      · exact List.mem_cons_of_mem _ ih

theorem placeUnder_matches (h : w.table.Draws o) {r : Row} (hr : r ∈ w.table.rows)
    (attributes : Attributes) :
    w.Matches Stored (w.placeUnder attributes r)
      (.ok (o.fresh attributes, o.place attributes r.id)) := by
  refine (does_placeUnder w attributes r).imp fun p hp => ?_
  obtain ⟨hrow, htable, hq⟩ := hp
  rw [htable, hrow]
  exact ⟨⟨mem_rows_insert .., by rw [Outline.fresh, ← h.nextId]; rfl⟩, h.place hr attributes, hq⟩

private theorem plant_matches (h : w.table.Draws o) (ho : o.tree = none) (attributes : Attributes) :
    w.Matches Stored (lift (w.insert attributes Interval.root))
      (.ok (o.fresh attributes, o.plant attributes)) := by
  refine (does_insert w attributes Interval.root).imp fun p hp => ?_
  obtain ⟨hrow, htable, hq⟩ := hp
  rw [htable, hrow]
  exact ⟨⟨mem_rows_insert .., by rw [Outline.fresh, ← h.nextId]; rfl⟩, h.plant ho attributes, hq⟩

theorem insertRoot_matches (h : w.table.Draws o) (attributes : Attributes) :
    w.Matches Stored (w.insertRoot attributes) (o.insertRoot attributes) := by
  simp only [insertRoot, h.root?_eq, Outline.insertRoot]
  cases ho : o.tree with
  | none => exact plant_matches h ho attributes
  | some t => rfl

theorem insertUnder_matches (h : w.table.Draws o) (attributes : Attributes)
    (parent : Option NodeId) :
    w.Matches Stored (w.insertUnder attributes parent) (o.insert attributes parent) := by
  cases parent with
  | some id =>
    simp only [insertUnder, Outline.insert]
    cases hr : w.table.get? id with
    | none => rw [if_neg (h.get?_eq_none_iff.mp hr)]; rfl
    | some r =>
      obtain ⟨hmem, rfl⟩ := Table.get?_eq_some_iff.mp hr
      rw [if_pos (h.id_mem hmem)]
      exact placeUnder_matches h hmem attributes
  | none =>
    simp only [insertUnder, h.root?_eq, Outline.insert]
    cases ho : o.tree with
    | none =>
      have hroot := insertRoot_matches h attributes
      rw [Outline.insertRoot, ho] at hroot
      exact hroot
    | some t =>
      exact placeUnder_matches h (Table.rootRow_mem h.rows ho) attributes

/-- The numbers of a node and of what is below it. -/
theorem descendants_eq_of_width {i : Interval} {n : Nat} (h : i.right = i.left + 1 + 2 * n) :
    i.span = 2 * n + 2 ∧ i.descendants = n ∧
      (Removal.mk i.left i.right ⟨i.left, -i.span⟩).rows = n + 1 := by
  have hspan : i.right - i.left + 1 = 2 * (n + 1) := by omega
  have hinside : i.right - i.left - 1 = 2 * n := by omega
  refine ⟨by rw [Interval.span]; omega, ?_, ?_⟩
  · rw [Interval.descendants, hinside, Int.mul_tdiv_cancel_left _ (by decide)]
  · rw [Removal.rows, hspan, Int.mul_tdiv_cancel_left _ (by decide)]

theorem deleteNode_matches (h : w.table.Draws o) (id : NodeId) (withDescendants : Bool) :
    w.Matches (fun _ n m => n = m) (w.deleteNode id withDescendants)
      (o.delete id withDescendants) := by
  simp only [deleteNode, Table.require, Outline.delete]
  cases hr : w.table.get? id with
  | none => rw [Grove.subtree?_eq_none_iff.mpr (h.get?_eq_none_iff.mp hr)]; rfl
  | some r =>
    obtain ⟨hmem, rfl⟩ := Table.get?_eq_some_iff.mp hr
    obtain ⟨below, hsub, hwidth⟩ := h.subtree? hmem
    obtain ⟨hspan, hdesc, hrows⟩ := descendants_eq_of_width hwidth
    rw [hsub]
    simp only [bind, Except.bind, Interval.removal]
    by_cases hkeep : below.size ≠ 0 ∧ withDescendants = false
    · rw [if_pos hkeep, if_pos ⟨by omega, hkeep.2⟩, hdesc]
      rfl
    · rw [if_neg hkeep, if_neg fun hk => hkeep ⟨by omega, hk.2⟩]
      refine (does_delete w _).bind fun p hp => ?_
      obtain ⟨hcount, htable, hq⟩ := hp
      rw [h.count_within hmem hsub] at hcount
      have hrows' : ¬((p.1 : Int) ≠
          (Removal.mk r.interval.left r.interval.right ⟨r.interval.left, -r.interval.span⟩).rows) := by
        rw [hrows, hcount]
        simp
      rw [if_neg hrows']
      refine Does.bind ((does_applyShift p.2 _).of_willing hq) fun w' hw' => ?_
      refine ⟨hcount, ?_, hq.trans hw'.2⟩
      rw [hw'.1, htable]
      exact h.remove hmem

end Work

end FlatTree
