import Mathlib.Data.List.Forall2
import Mathlib.Data.List.Perm.Basic

/-!
# Steps that may fail

What is known of steps that were taken one after the other, if none of them failed, and of a list
of steps that are alike: it goes well if each of them does, and else fails with the first that does.
-/

namespace FlatTree

variable {α β γ ε : Type} {f : α → Except ε β}

theorem bind_eq_ok_iff {x : Except ε α} {y : β} :
    x >>= f = .ok y ↔ ∃ a, x = .ok a ∧ f a = .ok y := by
  cases x <;> simp [bind, Except.bind]

theorem map_eq_ok_iff {x : Except ε α} {g : α → β} {y : β} :
    x.map g = .ok y ↔ ∃ a, x = .ok a ∧ g a = y := by
  cases x <;> simp [Except.map]

theorem map_eq_error_iff {x : Except ε α} {g : α → β} {e : ε} :
    x.map g = .error e ↔ x = .error e := by
  cases x <;> simp [Except.map]

theorem mapError_eq_ok_iff {x : Except ε α} {g : ε → γ} {a : α} :
    x.mapError g = .ok a ↔ x = .ok a := by
  cases x <;> simp [Except.mapError]

theorem toOption_eq_some_iff {x : Except ε α} {a : α} : x.toOption = some a ↔ x = .ok a := by
  cases x <;> simp [Except.toOption]

theorem mapM_eq_ok_iff {l : List α} {ys : List β} :
    l.mapM f = .ok ys ↔ List.Forall₂ (fun x y => f x = .ok y) l ys := by
  induction l generalizing ys with
  | nil =>
    rw [List.forall₂_nil_left_iff]
    exact ⟨fun h => (Except.ok.inj h).symm, fun h => h ▸ rfl⟩
  | cons x l ih =>
    rw [List.mapM_cons, List.forall₂_cons_left_iff]
    cases hx : f x with
    | error e => simp [bind, Except.bind]
    | ok y =>
      cases hl : l.mapM f with
      | error e => simp [bind, Except.bind, ← ih, hl]
      | ok zs => simp [bind, Except.bind, pure, Except.pure, ← ih, hl, eq_comm]

/-- A walk over members that goes well with each of them. -/
theorem mapM_attach_eq_ok {l : List α} {f : {x // x ∈ l} → Except ε β} {g : α → β}
    (h : ∀ x hx, f ⟨x, hx⟩ = .ok (g x)) : l.attach.mapM f = .ok (l.map g) := by
  rw [mapM_eq_ok_iff, ← List.attach_map_val (f := g), List.forall₂_map_right_iff,
    List.forall₂_same]
  exact fun x _ => h x.1 x.2

/-- The first refusal is the one that is told. -/
theorem mapM_eq_error_iff {refusal? : α → Option ε}
    (h : ∀ x e, f x = .error e ↔ refusal? x = some e) {l : List α} {e : ε} :
    l.mapM f = .error e ↔ l.findSome? refusal? = some e := by
  induction l with
  | nil => simp [pure, Except.pure]
  | cons x l ih =>
    rw [List.mapM_cons, List.findSome?_cons]
    cases hx : f x with
    | error e' =>
      rw [(h x e').mp hx]
      simp [bind, Except.bind]
    | ok y =>
      have hnone : refusal? x = none := by
        by_contra hsome
        obtain ⟨e', he'⟩ := Option.ne_none_iff_exists'.mp hsome
        cases hx.symm.trans ((h x e').mpr he')
      rw [hnone]
      dsimp only
      rw [← ih]
      cases l.mapM f <;> simp [bind, Except.bind, pure, Except.pure]

/-- What is gathered on the way may as well be gathered at the end. -/
theorem foldlM_map_eq (g : γ → β → γ) (l : List α) (c : γ) :
    l.foldlM (fun c x => (f x).map (g c)) c = (l.mapM f).map (·.foldl g c) := by
  induction l generalizing c with
  | nil => rfl
  | cons x l ih =>
    rw [List.foldlM_cons, List.mapM_cons]
    cases hx : f x with
    | error e => rfl
    | ok y =>
      refine (ih (g c y)).trans ?_
      cases l.mapM f <;> rfl

/-- A walk that fails comes to an element with which it fails. -/
theorem exists_of_foldlM_error {f : γ → α → Except ε γ} {l : List α} {c : γ} {e : ε}
    (h : l.foldlM f c = .error e) :
    ∃ done x rest c', l = done ++ x :: rest ∧ done.foldlM f c = .ok c' ∧ f c' x = .error e := by
  induction l generalizing c with
  | nil => cases h
  | cons x l ih =>
    rw [List.foldlM_cons] at h
    cases hx : f c x with
    | error e' =>
      rw [hx] at h
      cases h
      exact ⟨[], x, l, c, rfl, rfl, hx⟩
    | ok c₁ =>
      rw [hx] at h
      obtain ⟨done, y, rest, c', rfl, hdone, hy⟩ := ih h
      refine ⟨x :: done, y, rest, c', rfl, ?_, hy⟩
      rw [List.foldlM_cons, hx]
      exact hdone

theorem exists_of_mem_mapM {l : List α} {ys : List β} (h : l.mapM f = .ok ys) {y : β}
    (hy : y ∈ ys) : ∃ x ∈ l, f x = .ok y := by
  rw [mapM_eq_ok_iff] at h
  induction h with
  | nil => cases hy
  | cons hx _ ih =>
    rcases List.mem_cons.mp hy with rfl | hy
    · exact ⟨_, List.mem_cons_self, hx⟩
    · obtain ⟨x, hmem, hx⟩ := ih hy
      exact ⟨x, List.mem_cons_of_mem _ hmem, hx⟩

theorem exists_mem_of_mapM {l : List α} {ys : List β} (h : l.mapM f = .ok ys) {x : α}
    (hx : x ∈ l) : ∃ y ∈ ys, f x = .ok y := by
  rw [mapM_eq_ok_iff] at h
  induction h with
  | nil => cases hx
  | cons hy _ ih =>
    rcases List.mem_cons.mp hx with rfl | hx
    · exact ⟨_, List.mem_cons_self, hy⟩
    · obtain ⟨y, hmem, hy⟩ := ih hx
      exact ⟨y, List.mem_cons_of_mem _ hmem, hy⟩

/-- Steps that keep names keep the list of names. -/
theorem map_fst_of_mapM {κ : Type} {f : κ × α → Except ε (κ × β)}
    (hf : ∀ p q, f p = .ok q → q.1 = p.1) {l : List (κ × α)} {ys : List (κ × β)}
    (h : l.mapM f = .ok ys) : ys.map Prod.fst = l.map Prod.fst := by
  rw [← List.forall₂_eq_eq_eq, List.forall₂_map_left_iff, List.forall₂_map_right_iff]
  exact (mapM_eq_ok_iff.mp h).flip.imp fun _ _ hq => hf _ _ hq

theorem mapM_perm {l l' : List α} (h : l.Perm l') {ys' : List β} (hys : l'.mapM f = .ok ys') :
    ∃ ys, l.mapM f = .ok ys ∧ ys.Perm ys' := by
  obtain ⟨ys, hall, hperm⟩ := List.perm_comp_forall₂ h (mapM_eq_ok_iff.mp hys)
  exact ⟨ys, mapM_eq_ok_iff.mpr hall, hperm⟩

end FlatTree
