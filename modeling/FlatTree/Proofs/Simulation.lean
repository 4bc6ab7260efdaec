import FlatTree.Proofs.Changes

/-!
# Runs of changes

A store that begins empty is changed any number of times, successfully or not. The same changes are
made of an outline. Step by step the two answer alike, and the table of the store draws the outline.
-/

namespace FlatTree

/-- One change of a hierarchy. -/
inductive Edit where
  | insert (attributes : Attributes) (parent : Option NodeId)
  | insertRoot (attributes : Attributes)
  | delete (id : NodeId) (withDescendants : Bool)

/-- What a change answers: the node it stored, or how many nodes it took out. -/
inductive Reply (α : Type) where
  | stored (node : α)
  | removed (count : Nat)

/-- The answers of a machine and the states behind them, one for each input. -/
def trace {σ ε ρ : Type} (step : σ → ε → ρ × σ) (s : σ) : List ε → List (ρ × σ)
  | [] => []
  | e :: es => step s e :: trace step (step s e).2 es

private theorem trace_forall₂ {σ τ ε ρ π : Type} {step : σ → ε → ρ × σ} {step' : τ → ε → π × τ}
    {agree : ρ × σ → π × τ → Prop} (related : σ → τ → Prop)
    (hstep : ∀ s t e, related s t →
      agree (step s e) (step' t e) ∧ related (step s e).2 (step' t e).2)
    (es : List ε) {s : σ} {t : τ} (h : related s t) :
    List.Forall₂ agree (trace step s es) (trace step' t es) := by
  induction es generalizing s t with
  | nil => exact .nil
  | cons e es ih =>
    obtain ⟨hagree, hnext⟩ := hstep s t e h
    exact .cons hagree (ih hnext)

namespace Store

def edit (s : Store) : Edit → Except TreeError (Reply Row) × Store
  | .insert attributes parent =>
    let (r, s) := s.insert Faults.none attributes parent
    (r.map .stored, s)
  | .insertRoot attributes =>
    let (r, s) := s.insertRoot Faults.none attributes
    (r.map .stored, s)
  | .delete id withDescendants =>
    let (n, s) := s.delete Faults.none id withDescendants
    (n.map .removed, s)

end Store

namespace Outline

/-- What a change leaves: the new outline, or the old one if it failed. -/
def kept {α : Type} (o : Outline) : Except TreeError (α × Outline) → Except TreeError α × Outline
  | .ok (a, o') => (.ok a, o')
  | .error e => (.error e, o)

def edit (o : Outline) : Edit → Except TreeError (Reply Item) × Outline
  | .insert attributes parent =>
    let (x, o) := o.kept (o.insert attributes parent)
    (x.map .stored, o)
  | .insertRoot attributes =>
    let (x, o) := o.kept (o.insertRoot attributes)
    (x.map .stored, o)
  | .delete id withDescendants =>
    let (n, o) := o.kept (o.delete id withDescendants)
    (n.map .removed, o)

end Outline

/-- Two outcomes agree: both fail with the same error, or what they answer agrees. -/
def Agree {α β : Type} (agree : α → β → Prop) : Except TreeError α → Except TreeError β → Prop
  | .ok a, .ok b => agree a b
  | .error e, .error e' => e = e'
  | _, _ => False

theorem Agree.map {α β γ δ : Type} {agree : α → β → Prop} {agree' : γ → δ → Prop}
    {x : Except TreeError α} {y : Except TreeError β} {f : α → γ} {g : β → δ}
    (h : Agree agree x y) (hfg : ∀ a b, agree a b → agree' (f a) (g b)) :
    Agree agree' (x.map f) (y.map g) := by
  cases x with
  | error e => cases y <;> exact h
  | ok a =>
    cases y with
    | error e => exact h
    | ok b => exact hfg a b h

/-- Replies agree on the number of nodes, or on the node, whose row is in the table. -/
def Reply.Agree (t : Table) : Reply Row → Reply Item → Prop
  | .stored r, .stored x => r ∈ t.rows ∧ r.item = x
  | .removed n, .removed m => n = m
  | _, _ => False

namespace Store

variable {α β : Type} {s : Store} {o : Outline}

/-- A unit of work of a store that is told to refuse nothing. -/
theorem change_none (s : Store) (unit : Work → Except TreeError (α × Work)) :
    s.change Faults.none unit = match unit ⟨s.table, Quota.unlimited⟩ with
      | .error e => (.error e, s)
      | .ok (a, w) => (.ok a, ⟨w.table, s.version.next⟩) := by
  simp only [change, write, Faults.none]
  cases unit ⟨s.table, Quota.unlimited⟩ with
  | error e => rfl
  | ok p => simp [commit]

/-- A unit of work that matches a change of the outline does the same to the store. -/
theorem change_of_matches (unit : Work → Except TreeError (α × Work))
    {agree : Table → α → β → Prop} {spec : Except TreeError (β × Outline)} (h : s.table.Draws o)
    (hunit : (Work.mk s.table Quota.unlimited).Matches agree (unit ⟨s.table, Quota.unlimited⟩)
      spec) :
    Agree (agree (s.change Faults.none unit).2.table) (s.change Faults.none unit).1
        (o.kept spec).1 ∧
      (s.change Faults.none unit).2.table.Draws (o.kept spec).2 := by
  rw [change_none]
  rcases spec with e | ⟨b, o'⟩
  · have herror : unit ⟨s.table, Quota.unlimited⟩ = .error e := hunit
    rw [herror]
    exact ⟨rfl, h⟩
  · obtain ⟨⟨a, w⟩, hok, hagree, hdraws, -⟩ := Work.Does.exists_ok hunit rfl
    rw [hok]
    exact ⟨hagree, hdraws⟩

/-- One change keeps the table a drawing of the outline. -/
theorem edit_agrees (h : s.table.Draws o) (e : Edit) :
    Agree (Reply.Agree (s.edit e).2.table) (s.edit e).1 (o.edit e).1 ∧
      (s.edit e).2.table.Draws (o.edit e).2 := by
  cases e with
  | insert attributes parent =>
    obtain ⟨hagree, hdraws⟩ := change_of_matches (·.insertUnder attributes parent) h
      (Work.insertUnder_matches h attributes parent)
    exact ⟨hagree.map fun _ _ h => h, hdraws⟩
  | insertRoot attributes =>
    obtain ⟨hagree, hdraws⟩ := change_of_matches (·.insertRoot attributes) h
      (Work.insertRoot_matches h attributes)
    exact ⟨hagree.map fun _ _ h => h, hdraws⟩
  | delete id withDescendants =>
    obtain ⟨hagree, hdraws⟩ := change_of_matches (·.deleteNode id withDescendants) h
      (Work.deleteNode_matches h id withDescendants)
    exact ⟨hagree.map fun _ _ h => h, hdraws⟩

end Store

/-- Every run of changes of an empty store goes as it goes on trees: after each step the answers
agree, and the rows are the numbered nodes of the tree. -/
theorem edits_simulate_outline (es : List Edit) :
    List.Forall₂ (fun a b => Agree (Reply.Agree a.2.table) a.1 b.1 ∧ a.2.table.Draws b.2)
      (trace Store.edit Store.empty es) (trace Outline.edit Outline.empty es) := by
  refine trace_forall₂ (fun s o => s.table.Draws o) (fun s o e h => ?_) es Table.Draws.empty
  obtain ⟨hagree, hdraws⟩ := Store.edit_agrees h e
  exact ⟨⟨hagree, hdraws⟩, hdraws⟩

end FlatTree
