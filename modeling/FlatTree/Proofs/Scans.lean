import FlatTree.Proofs.Queries
import FlatTree.Proofs.Words

/-!
# What scans find and writes reach

A filter picks the same rows for a scan, for a count and for a removal, and a bound tells in the
same way which rows a shift reaches. Answers are sorted by the keys, and rows that no key tells
apart come by identity. So an answer is determined by the rows in it: what is taken out of a table
is taken out of every answer, and the rest stays in its order. Nothing is asked of the rows, which
need not be well numbered; but bounds that a shift moves have to stay in their words.
-/

namespace FlatTree

/-- The places that have a bound from some number on. -/
def Side.atLeast (side : Side) (n : Int) : Filter :=
  match side with
  | .left => ⟨.ge n, .any, none⟩
  | .right => ⟨.any, .ge n, none⟩

/-- Of two rows, the first one comes before the other in an answer: by the keys, or by its identity
if no key tells the two apart. -/
def SortKey.Precedes (keys : List SortKey) (a b : Row) : Prop :=
  orderBy keys a b = .lt ∨ (orderBy keys a b = .eq ∧ a.id.val < b.id.val)

instance (keys : List SortKey) (a b : Row) : Decidable (SortKey.Precedes keys a b) :=
  inferInstanceAs (Decidable (_ ∨ _))

namespace Table

/-- What a scan answers: each stored row that the filter accepts, once, and no other, sorted. -/
structure Scanned (t : Table) (f : Filter) (keys : List SortKey) (answer : List Row) : Prop where
  mem_iff : ∀ r, r ∈ answer ↔ t.get? r.id = some r ∧ f.accepts r.interval = true
  once : (answer.map (·.id)).Nodup
  sorted : answer.Pairwise (SortKey.Precedes keys)

/-- A table without the rows that a filter accepts: every other row is what it was, and every answer
is what it was without them. -/
structure Removed (t : Table) (f : Filter) (t' : Table) : Prop where
  get? : ∀ id, t'.get? id = (t.get? id).filter fun r => !f.accepts r.interval
  nextId : t'.nextId = t.nextId
  size : t'.size + t.count f = t.size
  count : t'.count f = 0
  find : ∀ g keys, t'.find g keys = (t.find g keys).filter fun r => !f.accepts r.interval

/-- A table with one bound carried further in each row that has it from the start of the shift on,
and nothing else changed. -/
structure Carried (t : Table) (side : Side) (s : Shift) (t' : Table) : Prop where
  get? : ∀ id, t'.get? id = (t.get? id).map fun r =>
    if s.start ≤ side.bound r.interval then
      { r with interval := side.carry s.delta r.interval }
    else r
  nextId : t'.nextId = t.nextId

end Table

/-! ## Sorting keeps ties -/

namespace SortKey

variable {keys : List SortKey} {rows : List Row} {a b : Row}

theorem Precedes.asymm (h : Precedes keys a b) : ¬Precedes keys b a := by
  have hswap : orderBy keys b a = (orderBy keys a b).swap := Std.OrientedCmp.eq_swap
  rw [Precedes, hswap]
  rcases h with h | ⟨h, hlt⟩
  · simp [h]
  · simp [h, Nat.le_of_lt hlt]

/-- Rows that are all tied stay in their order. -/
theorem filter_sort_of_tied {p : Row → Bool}
    (h : ∀ a b, p a = true → p b = true → orderBy keys a b = .eq) :
    (sort keys rows).filter p = rows.filter p := by
  have hpairwise : (rows.filter p).Pairwise fun a b => (orderBy keys a b).isLE = true := by
    refine List.pairwise_of_forall_mem_list fun a ha b hb => ?_
    rw [h a b (List.mem_filter.mp ha).2 (List.mem_filter.mp hb).2]
    rfl
  have hsublist : (rows.filter p).Sublist (sort keys rows) :=
    List.sublist_mergeSort (fun _ _ _ => Std.TransCmp.isLE_trans) (isLE_or_isLE keys) hpairwise
      List.filter_sublist
  have htied := hsublist.filter p
  simp only [List.filter_filter, Bool.and_self] at htied
  exact (htied.eq_of_length ((sort_perm keys rows).filter p).length_eq.symm).symm

/-- Rows that come by identity are sorted without a choice. -/
theorem pairwise_precedes_sort (h : rows.Pairwise fun a b => a.id.val < b.id.val) :
    (sort keys rows).Pairwise (Precedes keys) := by
  rw [List.pairwise_iff_forall_sublist]
  intro a b hab
  have hle := List.pairwise_iff_forall_sublist.mp (pairwise_sort keys rows) hab
  cases horder : orderBy keys a b with
  | lt => exact .inl horder
  | gt =>
    rw [horder] at hle
    cases hle
  | eq =>
    -- what is tied with `a` stands in the answer as it is stored
    let tied (r : Row) : Bool := orderBy keys a r = .eq
    have hself : tied a = true := decide_eq_true Std.ReflCmp.compare_self
    have hother : tied b = true := decide_eq_true horder
    have hstored : (sort keys rows).filter tied = rows.filter tied := by
      refine filter_sort_of_tied fun c d hc hd => ?_
      rw [← Std.TransCmp.congr_left (of_decide_eq_true hc)]
      exact of_decide_eq_true hd
    have hsublist := hab.filter tied
    rw [List.filter_cons_of_pos hself, List.filter_cons_of_pos hother, List.filter_nil,
      hstored] at hsublist
    exact .inr ⟨horder, List.pairwise_iff_forall_sublist.mp (h.filter tied) hsublist⟩

end SortKey

/-! ## Answers -/

namespace Table

variable {t : Table} {f : Filter} {keys : List SortKey}

theorem find_perm_filter (t : Table) (f : Filter) (keys : List SortKey) :
    (t.find f keys).Perm (t.rows.filter (f.accepts ·.interval)) :=
  SortKey.sort_perm _ _

theorem pairwise_find (t : Table) (f : Filter) (keys : List SortKey) :
    (t.find f keys).Pairwise (SortKey.Precedes keys) :=
  SortKey.pairwise_precedes_sort (t.ascending.filter _)

/-- An answer is determined by the rows in it. -/
theorem find_eq_of_perm {rows : List Row}
    (hperm : rows.Perm (t.rows.filter (f.accepts ·.interval)))
    (hsorted : rows.Pairwise (SortKey.Precedes keys)) : t.find f keys = rows :=
  List.Perm.eq_of_pairwise (fun _ _ _ _ h h' => absurd h' h.asymm) (t.pairwise_find f keys) hsorted
    ((t.find_perm_filter f keys).trans hperm.symm)

private theorem scanned_find (t : Table) (f : Filter) (keys : List SortKey) :
    t.Scanned f keys (t.find f keys) where
  mem_iff r := by
    rw [mem_find, get?_eq_some_iff, and_iff_left rfl]
  once := by
    rw [((t.find_perm_filter f keys).map (·.id)).nodup_iff]
    exact t.nodup_ids.sublist (List.filter_sublist.map _)
  sorted := t.pairwise_find f keys

/-! ## Writes -/

theorem find_delete (t : Table) (f g : Filter) (keys : List SortKey) :
    (t.delete f).find g keys = (t.find g keys).filter fun r => !f.accepts r.interval := by
  refine find_eq_of_perm ?_ ((t.pairwise_find g keys).filter _)
  rw [delete, List.filter_comm]
  exact (t.find_perm_filter g keys).filter _

private theorem removed_delete (t : Table) (f : Filter) : t.Removed f (t.delete f) where
  get? id := by
    ext r
    rw [get?_eq_some_iff, Option.filter_eq_some_iff, get?_eq_some_iff, delete, List.mem_filter,
      and_right_comm]
  nextId := rfl
  size := by
    rw [size, size, t.rows.length_eq_countP_add_countP (f.accepts ·.interval), Nat.add_comm, delete,
      ← List.countP_eq_length_filter]
    simp [count]
  count := by simp [count, delete]
  find := t.find_delete f

private theorem reached_eq_count (t : Table) (side : Side) (s : Shift) :
    t.reached side s = t.count (side.atLeast s.start) := by
  refine List.countP_congr fun r _ => ?_
  rw [decide_eq_true_iff]
  cases side <;> simp [Side.atLeast, Side.bound, Filter.accepts, Comparison.holds]

theorem carried_shift (t : Table) (side : Side) (s : Shift) :
    t.Carried side s (t.shift side s) where
  get? id := by
    rw [get?, shift, List.find?_map]
    refine congrArg (Option.map · _) (funext fun r => ?_)
    rw [Shift.move_eq]
    split <;> rfl
  nextId := rfl

end Table

namespace Work

private theorem exists_spend (message : String) {allowance : Option Nat} (h : allowance ≠ some 0) :
    ∃ left, spend message allowance = .ok left := by
  rcases allowance with _ | _ | n
  · exact ⟨none, rfl⟩
  · exact absurd rfl h
  · exact ⟨some n, rfl⟩

/-- On every table, well numbered or not, a scan, a count, a removal and a shift mean the same rows
by a filter: the scan answers them, the count tells how many they are, the removal takes out them
alone, and the shift moves one bound of them alone. A write goes well if the store may make one more
of its kind. The sums of a shift have to fit their words; then, and only then, words come to the
table of the numbers. -/
theorem scans_and_writes_agree (w : Work) (f : Filter) (side : Side) (s : Shift) :
    (∀ keys, w.table.Scanned f keys (w.table.find f keys) ∧
      w.table.count f = (w.table.find f keys).length) ∧
    (w.quota.deletes ≠ some 0 →
      ∃ w', w.delete f = .ok (w.table.count f, w') ∧ w.table.Removed f w'.table) ∧
    (w.quota.shifts ≠ some 0 → w.table.SumsFit side s →
      ∃ w', w.shift side s = .ok (w.table.count (side.atLeast s.start), w') ∧
        w.table.Carried side s w'.table ∧ w'.table = w.table.wordShift side s) ∧
    (w.table.wordShift side s = w.table.shift side s ↔ w.table.SumsFit side s) := by
  refine ⟨fun keys => ⟨w.table.scanned_find f keys, w.table.count_eq_length_find f keys⟩,
    fun hq => ?_, fun hq hfit => ?_, Table.wordShift_eq_iff⟩
  · obtain ⟨left, hleft⟩ := exists_spend "delete refused" hq
    refine ⟨⟨w.table.delete f, { w.quota with deletes := left }⟩, ?_, w.table.removed_delete f⟩
    rw [delete, hleft]
    rfl
  · obtain ⟨left, hleft⟩ := exists_spend "shift refused" hq
    refine ⟨⟨w.table.shift side s, { w.quota with shifts := left }⟩, ?_,
      w.table.carried_shift side s, (Table.wordShift_eq_iff.mpr hfit).symm⟩
    rw [shift, hleft, ← Table.reached_eq_count]
    rfl

/-- A table that no tree has: no row begins with 1, intervals cross, and two begin alike. -/
def crossed : Work where
  table := {
    rows := [⟨⟨1⟩, ⟨0, 5, 0⟩, Dict.empty⟩, ⟨⟨3⟩, ⟨4, 8, 1⟩, Dict.empty⟩,
      ⟨⟨4⟩, ⟨2, 6, 3⟩, Dict.empty⟩, ⟨⟨7⟩, ⟨4, 3, 1⟩, Dict.empty⟩]
    nextId := 9
    ascending := by decide }
  quota := Quota.unlimited

/-- The rows that begin at 4 or further right come by identity, are taken out together, and are
moved together. -/
theorem scans_and_writes_agree_crossed :
    let f := Side.left.atLeast 4
    (∀ s, Numbering.check crossed.table.rows ≠ .ok s) ∧
      (crossed.table.find f []).map (·.id) = [⟨3⟩, ⟨7⟩] ∧
      (∃ w', crossed.delete f = .ok (2, w') ∧ crossed.table.Removed f w'.table) ∧
      crossed.table.SumsFit .left ⟨4, 2⟩ ∧
      ∃ w', crossed.shift .left ⟨4, 2⟩ = .ok (2, w') ∧
        crossed.table.Carried .left ⟨4, 2⟩ w'.table ∧
        w'.table = crossed.table.wordShift .left ⟨4, 2⟩ := by
  intro f
  have hcheck (s : Summary) : Numbering.check crossed.table.rows ≠ .ok s := by
    intro h
    obtain ⟨o, ho, -⟩ := Table.exists_outline_of_check h 9
    cases htree : o.tree with
    | none =>
      have hlength := ho.length_eq
      rw [Outline.length_rows, Outline.grove, htree] at hlength
      cases hlength
    | some tree =>
      exact absurd rfl ((by decide : ∀ r ∈ crossed.table.rows, r.interval.left ≠ 1) _
        (Table.rootRow_mem ho htree))
  have hfind : crossed.table.find f [] = crossed.table.rows.filter (f.accepts ·.interval) :=
    Table.find_eq_of_perm (.refl _) (by decide +kernel)
  have hquota : Quota.unlimited.deletes ≠ some 0 ∧ Quota.unlimited.shifts ≠ some 0 := by decide
  have hfit : crossed.table.SumsFit .left ⟨4, 2⟩ := by decide
  obtain ⟨-, hdelete, hshift, -⟩ := scans_and_writes_agree crossed f .left ⟨4, 2⟩
  exact ⟨hcheck, by rw [hfind]; decide, hdelete hquota.1, hfit, hshift hquota.2 hfit⟩

end Work
end FlatTree
