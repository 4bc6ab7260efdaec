import FlatTree.Table

/-!
# Bounds and depths in words

A store keeps bounds in words of 64 bits with a sign, and depths in words of 32 bits without one. A
sum that does not fit its word stops a program that looks out for that, and goes round in one that
does not. Two places of the table add to words that may hold anything: a shift adds to bounds, and
the filter for children adds one to a depth. What words come to there is what numbers come to just
as long as the sums fit.
-/

namespace FlatTree

def FitsBound (x : Int) : Prop :=
  -0x8000000000000000 ≤ x ∧ x < 0x8000000000000000

instance (x : Int) : Decidable (FitsBound x) :=
  inferInstanceAs (Decidable (_ ∧ _))

/-- The sum that a word of 64 bits comes to. -/
def wordSum (x d : Int) : Int :=
  (Int64.ofInt x + Int64.ofInt d).toInt

theorem wordSum_eq_bmod (x d : Int) : wordSum x d = (x + d).bmod 0x10000000000000000 := by
  rw [wordSum, Int64.toInt_add, Int64.toInt_ofInt, Int64.toInt_ofInt]
  exact Int.bmod_add_bmod.trans Int.add_bmod_bmod

theorem wordSum_eq_iff {x d : Int} : wordSum x d = x + d ↔ FitsBound (x + d) := by
  constructor
  · intro h
    rw [FitsBound, ← h]
    exact ⟨Int64.le_toInt _, Int64.toInt_lt _⟩
  · rintro ⟨hlow, hhigh⟩
    rw [wordSum_eq_bmod]
    exact Int.bmod_eq_of_le (by omega) (by omega)

/-- The interval with one bound carried further. -/
def Side.carry (side : Side) (d : Int) (i : Interval) : Interval :=
  match side with
  | .left => { i with left := i.left + d }
  | .right => { i with right := i.right + d }

def Side.wordCarry (side : Side) (d : Int) (i : Interval) : Interval :=
  match side with
  | .left => { i with left := wordSum i.left d }
  | .right => { i with right := wordSum i.right d }

namespace Table

/-- A shift of words: it adds to one bound of the rows that it reaches. -/
def wordShift (t : Table) (side : Side) (s : Shift) : Table :=
  ⟨t.rows.map fun r =>
      if s.start ≤ side.bound r.interval then
        { r with interval := side.wordCarry s.delta r.interval }
      else r,
    t.nextId, List.pairwise_map.mpr (t.ascending.imp fun h => by split <;> split <;> exact h)⟩

/-- Every bound that a shift moves stays in its word. -/
def SumsFit (t : Table) (side : Side) (s : Shift) : Prop :=
  ∀ r ∈ t.rows, s.start ≤ side.bound r.interval → FitsBound (side.bound r.interval + s.delta)

/-- To every depth one more can be counted in its word. -/
def DepthsFit (t : Table) : Prop :=
  ∀ r ∈ t.rows, r.interval.depth < 0xffffffff

instance (t : Table) (side : Side) (s : Shift) : Decidable (t.SumsFit side s) :=
  List.decidableBAll _ t.rows

instance (t : Table) : Decidable t.DepthsFit :=
  List.decidableBAll _ t.rows

end Table

/-- The filter for what is below a node, with a depth that was counted on in its word. -/
def Filter.wordBelow (parent : Interval) (directOnly : Bool) : Filter :=
  if directOnly then (inside parent).atDepth (UInt32.ofNat parent.depth + 1).toNat
  else inside parent

theorem Shift.move_eq (s : Shift) (side : Side) (i : Interval) :
    s.move side i = if s.start ≤ side.bound i then side.carry s.delta i else i := by
  by_cases h : s.start ≤ side.bound i
  · rw [if_pos h]
    cases side with
    | left => exact congrArg (Interval.mk · i.right i.depth) (bound_of_le h)
    | right => exact congrArg (Interval.mk i.left · i.depth) (bound_of_le h)
  · rw [if_neg h]
    cases side with
    | left => exact congrArg (Interval.mk · i.right i.depth) (bound_of_lt (Int.not_le.mp h))
    | right => exact congrArg (Interval.mk i.left · i.depth) (bound_of_lt (Int.not_le.mp h))

private theorem wordCarry_eq_carry_iff {side : Side} {d : Int} {i : Interval} :
    side.wordCarry d i = side.carry d i ↔ FitsBound (side.bound i + d) := by
  rw [← wordSum_eq_iff]
  cases side <;> simp [Side.wordCarry, Side.carry, Side.bound]

theorem Table.wordShift_eq_iff {t : Table} {side : Side} {s : Shift} :
    t.wordShift side s = t.shift side s ↔ t.SumsFit side s := by
  have hrows : t.wordShift side s = t.shift side s ↔
      (t.wordShift side s).rows = (t.shift side s).rows :=
    ⟨congrArg Table.rows, fun h => by simp only [wordShift, shift] at h ⊢; congr⟩
  rw [hrows, wordShift, shift, List.map_inj_left]
  refine forall₂_congr fun r _ => ?_
  rw [Shift.move_eq]
  by_cases hle : s.start ≤ side.bound r.interval
  · simp [hle, wordCarry_eq_carry_iff]
  · simp [hle]

theorem Filter.wordBelow_eq_iff {parent : Interval} {directOnly : Bool} :
    wordBelow parent directOnly = below parent directOnly ↔
      (directOnly = true → parent.depth < 0xffffffff) := by
  cases directOnly with
  | false => simp [wordBelow, below]
  | true =>
    simp [wordBelow, below, atDepth, UInt32.toNat_add]
    omega

end FlatTree
