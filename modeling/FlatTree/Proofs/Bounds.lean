import FlatTree.Proofs.Drawing
import FlatTree.Proofs.Violations

/-!
# The numbers that bounds take

The two bounds of every node of a tree use up the count from its first number to its last, each
number once. So the rows that pass the check have the numbers from 1 to twice their count for
bounds; the root has the first and the last of them, and no depth reaches the number of rows.
-/

namespace FlatTree

/-- The two numbers that an interval takes of the count. -/
def Interval.bounds (i : Interval) : List Int :=
  [i.left, i.right]

namespace Grove

/-- As many numbers as are asked for, from `c` on. -/
def numbers (c : Int) (n : Nat) : List Int :=
  (List.range n).map fun k : Nat => c + k

theorem numbers_add (c : Int) (m n : Nat) :
    numbers c (m + n) = numbers c m ++ numbers (c + m) n := by
  simp only [numbers, List.range_add, List.map_append, List.map_map]
  refine congrArg (List.map _ (List.range m) ++ ·) (List.map_congr_left fun k _ => ?_)
  simp only [Function.comp_apply]
  omega

theorem mem_numbers {c x : Int} {n : Nat} : x ∈ numbers c n ↔ c ≤ x ∧ x < c + n := by
  simp only [numbers, List.mem_map, List.mem_range]
  constructor
  · rintro ⟨k, hk, rfl⟩
    omega
  · intro hx
    exact ⟨(x - c).toNat, by omega, by omega⟩

theorem nodup_numbers (c : Int) (n : Nat) : (numbers c n).Nodup :=
  List.nodup_range.map fun _ _ h => Int.natCast_inj.mp (Int.add_left_cancel h)

variable {α : Type}

/-- A tree takes its first number, then the nodes below it take theirs, then it takes one more, and
then come the trees after it. -/
theorem bounds_tour_perm (g : Grove α) (d : Nat) (c : Int) :
    ((g.tour d c).flatMap (·.2.bounds)).Perm (numbers c (2 * g.size)) := by
  induction g generalizing d c with
  | nil => exact .refl _
  | cons a below after ihb iha =>
    have hstop := stop_eq below (c + 1)
    have hsplit : numbers c (2 * (cons a below after).size) =
        c :: (numbers (c + 1) (2 * below.size) ++
          below.stop (c + 1) :: numbers (below.stop (c + 1) + 1) (2 * after.size)) := by
      have hsum : 2 * (cons a below after).size =
          1 + (2 * below.size + (1 + 2 * after.size)) := by
        rw [size]
        omega
      rw [hsum, numbers_add, numbers_add, numbers_add, hstop]
      simp [numbers]
    rw [hsplit, tour, List.flatMap_cons, List.flatMap_append]
    refine List.Perm.cons c ?_
    refine .trans ?_ List.perm_middle.symm
    exact ((ihb (d + 1) (c + 1)).append (iha d (below.stop (c + 1) + 1))).cons _

theorem height_le_size (g : Grove α) : g.height ≤ g.size := by
  induction g with
  | nil => exact Nat.le_refl 0
  | cons a below after ihb iha =>
    rw [height, size]
    omega

end Grove

namespace Numbering

/-- Rows that use up the numbers from 1 to twice their count: no bound occurs twice, the root has
the first number and the last, and every row is below fewer rows than there are. -/
structure Packed (rows : List Row) : Prop where
  nodup : (rows.flatMap (·.interval.bounds)).Nodup
  mem_iff : ∀ x : Int, x ∈ rows.flatMap (·.interval.bounds) ↔ 1 ≤ x ∧ x ≤ 2 * rows.length
  root : rows = [] ∨ ∃ root, IsRoot rows root ∧ root.interval = ⟨1, 2 * rows.length, 0⟩
  depth : ∀ r ∈ rows, r.interval.depth + 1 ≤ rows.length

theorem countP_of_check {rows : List Row} {s : Summary} (h : check rows = .ok s) (hne : rows ≠ []) :
    (rows.countP fun r => decide (r.interval.left = 1)) = 1 := by
  have hperm := sorted_perm rows
  cases hsorted : sorted rows with
  | nil => exact absurd (List.nil_perm.mp (hsorted ▸ hperm)) hne
  | cons first rest =>
    obtain ⟨⟨hcount, -, -⟩, -, -⟩ := (check_eq_ok_iff_swept hsorted).mp h
    rwa [← hsorted, hperm.countP_eq] at hcount

theorem packed_of_check {rows : List Row} {s : Summary} (h : check rows = .ok s) : Packed rows := by
  by_cases hne : rows = []
  · subst hne
    exact ⟨List.nodup_nil, fun x => by simp; omega, .inl rfl, fun r hr => by cases hr⟩
  · obtain ⟨t, htour, -⟩ := exists_tree_of_check h hne fun _ => ()
    have hsize : rows.length = t.grove.size := by
      rw [← Grove.length_tour t.grove 0 1, ← Tree.tour, ← htour.length_eq, List.length_map]
    have hbounds : (rows.flatMap (·.interval.bounds)).Perm (Grove.numbers 1 (2 * rows.length)) := by
      have hmap := htour.flatMap_right (·.2.bounds)
      rw [List.flatMap_map] at hmap
      exact hsize ▸ hmap.trans (Grove.bounds_tour_perm t.grove 0 1)
    have hmem : ∀ r ∈ rows, ((), r.interval) ∈ t.grove.tour 0 1 := fun r hr =>
      htour.subset (List.mem_map_of_mem hr)
    refine ⟨hbounds.nodup_iff.mpr (Grove.nodup_numbers ..), fun x => ?_, .inr ?_, fun r hr => ?_⟩
    · rw [hbounds.mem_iff, Grove.mem_numbers]
      omega
    · have hroot : ((), ⟨1, t.below.stop 2, 0⟩) ∈ t.tour := t.tour_eq ▸ List.mem_cons_self
      obtain ⟨r, hr, heq⟩ := List.mem_map.mp (htour.symm.subset hroot)
      have hinterval : r.interval = ⟨1, t.below.stop 2, 0⟩ := congrArg Prod.snd heq
      have hstop : t.below.stop 2 = 2 * rows.length := by
        rw [Grove.stop_eq, hsize, Tree.grove, Grove.size, Grove.size]
        omega
      exact ⟨r, isRoot_of_countP (countP_of_check h hne) hr (by rw [hinterval]), hstop ▸ hinterval⟩
    · have hlt := Grove.depth_lt_of_mem_tour (hmem r hr)
      have hle := Grove.height_le_size t.grove
      dsimp only at hlt
      omega

end Numbering

end FlatTree
