import FlatTree.Proofs.Rounding
import FlatTree.Table
import Mathlib.Data.List.Nodup
import Mathlib.Order.Monotone.Basic

/-!
# The order of rows

Rows are compared by several keys, then by their left bounds. Some values of attributes are not told
apart although they differ: the two zeros, the numbers that are none, and two readings of one
moment. All in all this is a preorder in which any two rows are comparable, whatever attributes they
have. Where no two rows have one left bound it leaves no choice, so that a sorted list does not
depend on the order before.
-/

namespace FlatTree

/-! ## Values -/

namespace Binary64

/-- What a float stands for, in units of `2 ^ -1074`. Infinity stands for a size beyond all finite
ones. -/
def value (x : Binary64) : Int :=
  if x.isNegative then -(x.units : Int) else x.units

/-- One number, or both no number. -/
def Same (x y : Binary64) : Prop :=
  x.isNaN = y.isNaN ∧ (x.isNaN ∨ x.value = y.value)

/-- Numbers by size; what is no number comes after all of them. -/
def Less (x y : Binary64) : Prop :=
  ¬x.isNaN ∧ (y.isNaN ∨ x.value < y.value)

end Binary64

/-- An earlier moment, whatever clock and calendar show. -/
def Instant.Less (s t : Instant) : Prop :=
  s.moment.1 < t.moment.1 ∨ (s.moment.1 = t.moment.1 ∧ s.moment.2 < t.moment.2)

namespace Attribute

/-- Values that are not told apart. -/
def Same : Attribute → Attribute → Prop
  | .boolean a, .boolean b => a = b
  | .long a, .long b => a = b
  | .double a, .double b => a.Same b
  | .string a, .string b => a = b
  | .keyword a, .keyword b => a = b
  | .instant a, .instant b => a.moment = b.moment
  | .uuid a, .uuid b => a = b
  | .ref a, .ref b => a = b
  | _, _ => False

/-- Within a kind, the order of what the values stand for; the kinds in their order. -/
def Less : Attribute → Attribute → Prop
  | .boolean a, .boolean b => a = false ∧ b = true
  | .long a, .long b => a < b
  | .double a, .double b => a.Less b
  | .string a, .string b => a < b
  | .keyword a, .keyword b => a < b
  | .instant a, .instant b => a.Less b
  | .uuid a, .uuid b => a.value < b.value
  | .ref a, .ref b => a.val < b.val
  | a, b => a.rank < b.rank

end Attribute

namespace Column

/-- Two rows have the same in a column; of an attribute, neither has it, or both have values that
are not told apart. -/
def Agree (column : Column) (a b : Row) : Prop :=
  match column with
  | .left => a.interval.left = b.interval.left
  | .right => a.interval.right = b.interval.right
  | .depth => a.interval.depth = b.interval.depth
  | .id => a.id = b.id
  | .attribute name => Option.Rel Attribute.Same (a.attributes.get? name) (b.attributes.get? name)

/-- One row has less in a column than another; of an attribute, it lacks what the other has, or has
the lesser value. -/
def Before (column : Column) (a b : Row) : Prop :=
  match column with
  | .left => a.interval.left < b.interval.left
  | .right => a.interval.right < b.interval.right
  | .depth => a.interval.depth < b.interval.depth
  | .id => a.id.val < b.id.val
  | .attribute name =>
    match a.attributes.get? name, b.attributes.get? name with
    | none, y => y.isSome
    | some _, none => False
    | some x, some y => x.Less y

end Column

namespace Binary64

instance : Std.TransOrd Binary64 :=
  inferInstanceAs (Std.TransCmp (compareOn orderKey))

theorem unitsOf_lt_succ (m : Nat) : unitsOf m < unitsOf (m + 1) := by
  rcases magnitude_cases m with h | ⟨e, f, hf, rfl⟩
  · have hsucc : unitsOf (m + 1) = m + 1 := by
      rcases Nat.lt_or_eq_of_le (Nat.succ_le_of_lt h) with hlt | heq
      · exact unitsOf_of_lt hlt
      · obtain rfl : m = 0xfffffffffffff := Nat.succ.inj heq
        decide
    rw [unitsOf_of_lt h, hsucc]
    exact Nat.lt_succ_self m
  · -- `e` binary digits are cut off, and the digits left are one more
    have hcut : ∀ r, (e + 1) * 0x10000000000000 + r = (e <<< 52) + (0x10000000000000 + r) := by
      intro r
      rw [Nat.shiftLeft_eq]
      omega
    rw [Nat.add_assoc, hcut, hcut, unitsOf_cut (by omega) (by omega),
      unitsOf_cut (by omega) (by omega), Nat.shiftLeft_eq, Nat.shiftLeft_eq]
    exact Nat.mul_lt_mul_of_pos_right (by omega) (Nat.two_pow_pos e)

theorem strictMono_unitsOf : StrictMono unitsOf :=
  strictMono_nat_of_lt_succ unitsOf_lt_succ

theorem orderKey_of_isNaN {x : Binary64} (h : x.isNaN = true) :
    x.orderKey = 0x8000000000000000 := by
  rw [orderKey, if_pos h]

private theorem orderKey_lt_of_not_isNaN {x : Binary64} (h : ¬x.isNaN = true) :
    x.orderKey < 0x8000000000000000 := by
  have hle : x.magnitude ≤ infinite := by simpa [isNaN] using h
  rw [infinite] at hle
  rw [orderKey, if_neg h]
  split <;> omega

/-- Keys and numbers are in one order. -/
theorem orderKey_lt_iff {x y : Binary64} (hx : ¬x.isNaN = true) (hy : ¬y.isNaN = true) :
    x.orderKey < y.orderKey ↔ x.value < y.value := by
  have hlt : ∀ a b, unitsOf a < unitsOf b ↔ a < b := fun _ _ => strictMono_unitsOf.lt_iff_lt
  have hzero : unitsOf 0 = 0 := unitsOf_of_lt (by decide)
  have hxy := hlt x.magnitude y.magnitude
  have hyx := hlt y.magnitude x.magnitude
  have hpos := hlt 0 x.magnitude
  have hpos' := hlt 0 y.magnitude
  rw [orderKey, orderKey, if_neg hx, if_neg hy, value, value, units, units]
  split <;> split <;> omega

theorem compare_eq_lt_iff {x y : Binary64} : compare x y = .lt ↔ x.Less y := by
  have hkey : compare x y = compare x.orderKey y.orderKey := rfl
  rw [hkey, Std.compare_eq_lt, Less]
  by_cases hx : x.isNaN = true
  · have hle : y.orderKey ≤ 0x8000000000000000 := by
      by_cases hy : y.isNaN = true
      · exact Int.le_of_eq (orderKey_of_isNaN hy)
      · exact Int.le_of_lt (orderKey_lt_of_not_isNaN hy)
    rw [orderKey_of_isNaN hx]
    exact iff_of_false (Int.not_lt.mpr hle) fun h => h.1 hx
  · by_cases hy : y.isNaN = true
    · rw [orderKey_of_isNaN hy]
      exact iff_of_true (orderKey_lt_of_not_isNaN hx) ⟨hx, .inl hy⟩
    · simp [orderKey_lt_iff hx hy, hx, hy]

theorem compare_eq_iff {x y : Binary64} : compare x y = .eq ↔ x.Same y := by
  have hkey : compare x y = .eq ↔ ¬compare x y = .lt ∧ ¬compare y x = .lt := by
    rw [Std.OrientedOrd.eq_swap (a := y)]
    cases compare x y <;> decide
  have hvalue : x.value = y.value ↔ ¬x.value < y.value ∧ ¬y.value < x.value := by omega
  rw [hkey, compare_eq_lt_iff, compare_eq_lt_iff, Same, Less, Less, hvalue]
  by_cases hx : x.isNaN = true <;> by_cases hy : y.isNaN = true <;> simp [hx, hy]

end Binary64

namespace Instant

instance : Std.TransOrd Instant :=
  inferInstanceAs (Std.TransCmp (compareLex (compareOn fun t : Instant => t.moment.1)
    (compareOn fun t : Instant => t.moment.2)))

theorem compare_eq_then (s t : Instant) : compare s t =
    (compare s.moment.1 t.moment.1).then (compare s.moment.2 t.moment.2) :=
  rfl

theorem compare_eq_lt_iff {s t : Instant} : compare s t = .lt ↔ s.Less t := by
  rw [compare_eq_then, Ordering.then_eq_lt, Std.compare_eq_lt, Std.compare_eq_iff_eq,
    Std.compare_eq_lt, Less]

theorem compare_eq_iff {s t : Instant} : compare s t = .eq ↔ s.moment = t.moment := by
  rw [compare_eq_then, Ordering.then_eq_eq, Std.compare_eq_iff_eq, Std.compare_eq_iff_eq,
    Prod.ext_iff]

end Instant

namespace Uuid

instance : Std.TransOrd Uuid :=
  inferInstanceAs (Std.TransCmp (compareOn fun u : Uuid => u.value.val))

theorem compare_eq_lt_iff {u v : Uuid} : compare u v = .lt ↔ u.value < v.value :=
  Std.compare_eq_lt (α := Nat)

theorem compare_eq_iff {u v : Uuid} : compare u v = .eq ↔ u = v := by
  have hvalue : compare u v = compare u.value.val v.value.val := rfl
  rw [hvalue, Std.compare_eq_iff_eq]
  obtain ⟨u⟩ := u
  obtain ⟨v⟩ := v
  simp [Fin.ext_iff]

end Uuid

namespace Attribute

variable {x y z : Attribute}

/-- Values of different kinds are told apart by their kinds. -/
theorem compare_of_rank_ne (h : x.rank ≠ y.rank) : compare x y = compare x.rank y.rank := by
  have horder : compare x y = order x y := rfl
  rw [horder, order]
  -- left are the cases of one kind, which the ranks rule out
  all_goals
    rintro _ _ rfl rfl
    exact h rfl

private theorem rank_le_of_isLE (h : (compare x y).isLE = true) : x.rank ≤ y.rank := by
  by_cases hne : x.rank = y.rank
  · exact Nat.le_of_eq hne
  · rw [compare_of_rank_ne hne] at h
    exact Nat.isLE_compare.mp h

/-- The values of one kind are ordered as what they hold. -/
theorem exists_kind (x : Attribute) :
    ∃ (α : Type) (_ : Ord α) (_ : Std.TransOrd α) (wrap : α → Attribute),
      (∀ a b, compare (wrap a) (wrap b) = compare a b) ∧
        ∀ y : Attribute, y.rank = x.rank → ∃ a, y = wrap a := by
  cases x
  case' boolean => refine ⟨Bool, inferInstance, inferInstance, .boolean, fun _ _ => rfl, ?_⟩
  case' long => refine ⟨Int64, inferInstance, inferInstance, .long, fun _ _ => rfl, ?_⟩
  case' double => refine ⟨Binary64, inferInstance, inferInstance, .double, fun _ _ => rfl, ?_⟩
  case' string => refine ⟨String, inferInstance, inferInstance, .string, fun _ _ => rfl, ?_⟩
  case' keyword => refine ⟨String, inferInstance, inferInstance, .keyword, fun _ _ => rfl, ?_⟩
  case' instant => refine ⟨Instant, inferInstance, inferInstance, .instant, fun _ _ => rfl, ?_⟩
  case' uuid => refine ⟨Uuid, inferInstance, inferInstance, .uuid, fun _ _ => rfl, ?_⟩
  case' ref => refine ⟨NodeId, inferInstance, inferInstance, .ref, fun _ _ => rfl, ?_⟩
  all_goals
    intro y hy
    cases y <;> cases hy
    exact ⟨_, rfl⟩

private theorem compare_swap (x y : Attribute) : compare x y = (compare y x).swap := by
  by_cases h : x.rank = y.rank
  · obtain ⟨α, _, _, wrap, hcompare, hwrap⟩ := exists_kind x
    obtain ⟨a, rfl⟩ := hwrap x rfl
    obtain ⟨b, rfl⟩ := hwrap y h.symm
    rw [hcompare, hcompare]
    exact Std.OrientedOrd.eq_swap
  · rw [compare_of_rank_ne h, compare_of_rank_ne (Ne.symm h)]
    exact Std.OrientedOrd.eq_swap

/-- Kinds ascend along a chain, so it stays within one kind or ends in a later one. -/
theorem isLE_trans (hxy : (compare x y).isLE = true) (hyz : (compare y z).isLE = true) :
    (compare x z).isLE = true := by
  have hle := rank_le_of_isLE hxy
  have hle' := rank_le_of_isLE hyz
  by_cases h : x.rank < z.rank
  · rw [compare_of_rank_ne (Nat.ne_of_lt h), Nat.compare_eq_lt.mpr h]
    rfl
  · obtain ⟨α, _, _, wrap, hcompare, hwrap⟩ := exists_kind x
    obtain ⟨a, rfl⟩ := hwrap x rfl
    obtain ⟨b, rfl⟩ := hwrap y (by omega)
    obtain ⟨c, rfl⟩ := hwrap z (by omega)
    rw [hcompare] at hxy hyz ⊢
    exact Std.TransOrd.isLE_trans hxy hyz

instance : Std.TransOrd Attribute where
  eq_swap := compare_swap _ _
  isLE_trans := isLE_trans

theorem compare_eq_lt_iff : compare x y = .lt ↔ x.Less y := by
  by_cases h : x.rank = y.rank
  · cases x <;> cases y <;> cases h
    · exact (by decide : ∀ a b : Bool, compare a b = .lt ↔ a = false ∧ b = true) _ _
    · exact Std.compare_eq_lt (α := Int64)
    · exact Binary64.compare_eq_lt_iff
    · exact compareOfLessAndEq_eq_lt
    · exact compareOfLessAndEq_eq_lt
    · exact Instant.compare_eq_lt_iff
    · exact Uuid.compare_eq_lt_iff
    · exact Std.compare_eq_lt (α := Nat)
  · rw [compare_of_rank_ne h, Std.compare_eq_lt, Less]
    all_goals
      rintro _ _ rfl rfl
      exact h rfl

theorem compare_eq_iff : compare x y = .eq ↔ x.Same y := by
  by_cases h : x.rank = y.rank
  · cases x <;> cases y <;> cases h
    · exact Std.compare_eq_iff_eq (α := Bool)
    · exact Std.compare_eq_iff_eq (α := Int64)
    · exact Binary64.compare_eq_iff
    · exact Std.compare_eq_iff_eq (α := String)
    · exact Std.compare_eq_iff_eq (α := String)
    · exact Instant.compare_eq_iff
    · exact Uuid.compare_eq_iff
    · exact Std.compare_eq_iff_eq (α := NodeId)
  · rw [compare_of_rank_ne h, Std.compare_eq_iff_eq, Same]
    · exact iff_of_false h id
    all_goals
      rintro _ _ rfl rfl
      exact h rfl

end Attribute

/-! ## Keys -/

namespace SortKey

instance (column : Column) : Std.TransCmp (compareColumn column) := by
  cases column with
  | left => exact inferInstanceAs (Std.TransCmp (compareOn fun r : Row => r.interval.left))
  | right => exact inferInstanceAs (Std.TransCmp (compareOn fun r : Row => r.interval.right))
  | depth => exact inferInstanceAs (Std.TransCmp (compareOn fun r : Row => r.interval.depth))
  | id => exact inferInstanceAs (Std.TransCmp (compareOn fun r : Row => r.id))
  | «attribute» name =>
    exact inferInstanceAs (Std.TransCmp (compareOn fun r : Row => r.attributes.get? name))

theorem compareColumn_eq_lt_iff {column : Column} {a b : Row} :
    compareColumn column a b = .lt ↔ column.Before a b := by
  cases column with
  | left => exact Std.compare_eq_lt (α := Int)
  | right => exact Std.compare_eq_lt (α := Int)
  | depth => exact Std.compare_eq_lt (α := Nat)
  | id => exact Std.compare_eq_lt (α := Nat)
  | «attribute» name =>
    simp only [compareColumn, Column.Before]
    cases a.attributes.get? name <;> cases b.attributes.get? name
    · exact iff_of_false (by decide) (by decide)
    · exact iff_of_true rfl rfl
    · exact iff_of_false Ordering.noConfusion id
    · exact Attribute.compare_eq_lt_iff

theorem compareColumn_eq_iff {column : Column} {a b : Row} :
    compareColumn column a b = .eq ↔ column.Agree a b := by
  cases column with
  | left => exact Std.compare_eq_iff_eq (α := Int)
  | right => exact Std.compare_eq_iff_eq (α := Int)
  | depth => exact Std.compare_eq_iff_eq (α := Nat)
  | id => exact Std.compare_eq_iff_eq (α := NodeId)
  | «attribute» name =>
    simp only [compareColumn, Column.Agree]
    cases a.attributes.get? name <;> cases b.attributes.get? name
    · exact iff_of_true rfl .none
    · exact iff_of_false Ordering.noConfusion Option.not_rel_none_some
    · exact iff_of_false Ordering.noConfusion Option.not_rel_some_none
    · exact Attribute.compare_eq_iff.trans Option.rel_some_some.symm

private theorem before_or_agree_or_before (column : Column) (a b : Row) :
    column.Before a b ∨ column.Agree a b ∨ column.Before b a := by
  have hswap : compareColumn column b a = (compareColumn column a b).swap :=
    Std.OrientedCmp.eq_swap
  rw [← compareColumn_eq_lt_iff, ← compareColumn_eq_iff, ← compareColumn_eq_lt_iff, hswap]
  cases compareColumn column a b <;> decide

instance (key : SortKey) : Std.TransCmp key.order := by
  cases hdesc : key.descending with
  | false =>
    have horder : key.order = compareColumn key.column := by
      funext a b
      rw [order, if_neg (Bool.eq_false_iff.mp hdesc)]
    rw [horder]
    infer_instance
  | true =>
    have horder : key.order = fun a b => compareColumn key.column b a := by
      funext a b
      rw [order, if_pos hdesc]
      exact Std.OrientedCmp.eq_swap.symm
    rw [horder]
    exact Std.TransCmp.opposite

theorem order_eq_iff {key : SortKey} {a b : Row} : key.order a b = .eq ↔ key.column.Agree a b := by
  rw [← compareColumn_eq_iff, order]
  split
  · rw [Ordering.swap_eq_eq]
  · rfl

theorem orderBy_cons (key : SortKey) (keys : List SortKey) :
    orderBy (key :: keys) = compareLex key.order (orderBy keys) :=
  rfl

instance (keys : List SortKey) : Std.TransCmp (orderBy keys) := by
  induction keys with
  | nil => exact inferInstanceAs (Std.TransCmp (compareOn fun r : Row => r.interval.left))
  | cons key keys ih =>
    rw [orderBy_cons]
    infer_instance

theorem orderBy_eq_iff {keys : List SortKey} {a b : Row} : orderBy keys a b = .eq ↔
    (∀ key ∈ keys, key.column.Agree a b) ∧ a.interval.left = b.interval.left := by
  induction keys with
  | nil =>
    have hleft : orderBy [] a b = .eq ↔ a.interval.left = b.interval.left :=
      Std.compare_eq_iff_eq (α := Int)
    simp [hleft]
  | cons key keys ih =>
    rw [orderBy_cons, compareLex, Ordering.then_eq_eq, order_eq_iff, ih, List.forall_mem_cons,
      and_assoc]

/-- Keys in whose columns two rows agree leave the decision to the later ones. -/
theorem orderBy_append {keys : List SortKey} {a b : Row}
    (h : ∀ key ∈ keys, key.column.Agree a b) (later : List SortKey) :
    orderBy (keys ++ later) a b = orderBy later a b := by
  induction keys with
  | nil => rfl
  | cons key keys ih =>
    obtain ⟨hkey, h⟩ := List.forall_mem_cons.mp h
    rw [List.cons_append, orderBy_cons, compareLex, order_eq_iff.mpr hkey, Ordering.eq_then, ih h]

/-- The first key that tells two rows apart decides, one way up or the other. -/
theorem orderBy_of_before {keys : List SortKey} {a b : Row}
    (h : ∀ key ∈ keys, key.column.Agree a b) {key : SortKey} (hkey : key.column.Before a b)
    (later : List SortKey) :
    orderBy (keys ++ key :: later) a b = if key.descending then .gt else .lt := by
  rw [orderBy_append h, orderBy_cons, compareLex, order, compareColumn_eq_lt_iff.mpr hkey]
  cases key.descending <;> rfl

/-- The earlier keys do not tell two rows apart, and this one does. -/
def Decides (earlier : List SortKey) (key : SortKey) (a b : Row) : Prop :=
  (∀ key ∈ earlier, key.column.Agree a b) ∧ ¬key.column.Agree a b

/-- The same key, turned round. -/
def reverse (key : SortKey) : SortKey :=
  { key with descending := !key.descending }

private theorem order_reverse (key : SortKey) (a b : Row) :
    key.reverse.order a b = (key.order a b).swap := by
  obtain ⟨column, descending⟩ := key
  cases descending
  · rfl
  · exact Ordering.swap_swap.symm

theorem orderBy_of_not_agree {key : SortKey} {a b : Row} (h : ¬key.column.Agree a b)
    (later : List SortKey) : orderBy (key :: later) a b = key.order a b := by
  rw [orderBy_cons, compareLex]
  cases horder : key.order a b with
  | lt => rfl
  | eq => exact absurd (order_eq_iff.mp horder) h
  | gt => rfl

/-- A key turned round turns round what it decides. -/
theorem orderBy_reverse_of_decides {earlier : List SortKey} {key : SortKey} {a b : Row}
    (h : Decides earlier key a b) (later : List SortKey) :
    orderBy (earlier ++ key.reverse :: later) a b =
      (orderBy (earlier ++ key :: later) a b).swap := by
  have hreverse : ¬key.reverse.column.Agree a b := h.2
  rw [orderBy_append h.1, orderBy_append h.1, orderBy_of_not_agree hreverse,
    orderBy_of_not_agree h.2, order_reverse]

/-- What an earlier key decides, or a later one, is not turned round with it. -/
theorem orderBy_reverse_of_not_decides {earlier : List SortKey} {key : SortKey} {a b : Row}
    (h : ¬Decides earlier key a b) (later : List SortKey) :
    orderBy (earlier ++ key.reverse :: later) a b = orderBy (earlier ++ key :: later) a b := by
  induction earlier with
  | nil =>
    have hagree : key.column.Agree a b := not_not.mp fun hkey => h ⟨by simp, hkey⟩
    have hreverse : key.reverse.order a b = .eq := order_eq_iff.mpr hagree
    rw [List.nil_append, List.nil_append, orderBy_cons, orderBy_cons, compareLex, compareLex,
      hreverse, order_eq_iff.mpr hagree]
  | cons first earlier ih =>
    rw [List.cons_append, List.cons_append]
    by_cases hfirst : first.column.Agree a b
    · rw [orderBy_cons, orderBy_cons, compareLex, compareLex,
        ih fun hkey => h ⟨List.forall_mem_cons.mpr ⟨hfirst, hkey.1⟩, hkey.2⟩]
    · rw [orderBy_of_not_agree hfirst, orderBy_of_not_agree hfirst]

/-! ## Sorting -/

theorem sort_perm (keys : List SortKey) (rows : List Row) : (sort keys rows).Perm rows :=
  List.mergeSort_perm _ _

theorem isLE_or_isLE (keys : List SortKey) (a b : Row) :
    ((orderBy keys a b).isLE || (orderBy keys b a).isLE) = true := by
  have hswap : orderBy keys b a = (orderBy keys a b).swap := Std.OrientedCmp.eq_swap
  rw [hswap]
  cases orderBy keys a b <;> rfl

theorem pairwise_sort (keys : List SortKey) (rows : List Row) :
    (sort keys rows).Pairwise fun a b => (orderBy keys a b).isLE = true :=
  List.pairwise_mergeSort (fun _ _ _ => Std.TransCmp.isLE_trans) (isLE_or_isLE keys) rows

/-- A list in which no two rows have one left bound has one order by the keys. -/
theorem eq_sort_of_perm {keys : List SortKey} {rows sorted : List Row}
    (hnodup : (rows.map (·.interval.left)).Nodup) (hperm : sorted.Perm rows)
    (hsorted : sorted.Pairwise fun a b => (orderBy keys a b).isLE = true) :
    sort keys rows = sorted := by
  refine List.Perm.eq_of_pairwise ?_ (pairwise_sort keys rows) hsorted
    ((sort_perm keys rows).trans hperm.symm)
  intro a b ha hb hab hba
  have heq : orderBy keys a b = .eq := Std.OrientedCmp.isLE_antisymm hab hba
  exact List.inj_on_of_nodup_map hnodup ((sort_perm keys rows).subset ha) (hperm.subset hb)
    (orderBy_eq_iff.mp heq).2

/-- Sorting does not depend on the order before. -/
theorem sort_eq_of_perm {rows rows' : List Row} (hnodup : (rows.map (·.interval.left)).Nodup)
    (hperm : rows'.Perm rows) (keys : List SortKey) : sort keys rows' = sort keys rows :=
  (eq_sort_of_perm hnodup ((sort_perm keys rows').trans hperm) (pairwise_sort keys rows')).symm

/-- How rows are compared by keys: as a preorder with any two rows comparable, by the first key that
tells them apart, and by the left bounds if none does. -/
structure Lexicographic (keys : List SortKey) : Prop where
  swap : ∀ a b, orderBy keys b a = (orderBy keys a b).swap
  trans : ∀ a b c, (orderBy keys a b).isLE = true → (orderBy keys b c).isLE = true →
    (orderBy keys a c).isLE = true
  eq_iff : ∀ a b, orderBy keys a b = .eq ↔
    (∀ key ∈ keys, key.column.Agree a b) ∧ a.interval.left = b.interval.left
  comparable : ∀ key ∈ keys, ∀ a b,
    key.column.Before a b ∨ key.column.Agree a b ∨ key.column.Before b a
  first : ∀ earlier key later, keys = earlier ++ key :: later →
    ∀ a b, (∀ key ∈ earlier, key.column.Agree a b) → key.column.Before a b →
      orderBy keys a b = if key.descending then .gt else .lt
  last : ∀ a b, (∀ key ∈ keys, key.column.Agree a b) →
    orderBy keys a b = compare a.interval.left b.interval.left
  turned : ∀ earlier key later, keys = earlier ++ key :: later → ∀ a b, Decides earlier key a b →
    orderBy (earlier ++ key.reverse :: later) a b = (orderBy keys a b).swap
  kept : ∀ earlier key later, keys = earlier ++ key :: later → ∀ a b, ¬Decides earlier key a b →
    orderBy (earlier ++ key.reverse :: later) a b = orderBy keys a b
  missing : ∀ earlier name descending later,
    keys = earlier ++ ⟨.attribute name, descending⟩ :: later →
    ∀ a b, (∀ key ∈ earlier, key.column.Agree a b) → a.attributes.get? name = none →
      b.attributes.get? name ≠ none → orderBy keys a b = if descending then .gt else .lt

theorem lexicographic (keys : List SortKey) : Lexicographic keys where
  swap _ _ := Std.OrientedCmp.eq_swap
  trans _ _ _ := Std.TransCmp.isLE_trans
  eq_iff _ _ := orderBy_eq_iff
  comparable key _ := before_or_agree_or_before key.column
  first earlier key later hkeys a b h hkey := by
    rw [hkeys, orderBy_of_before h hkey]
  last a b h := by
    rw [← List.append_nil keys, orderBy_append h]
    rfl
  turned earlier key later hkeys a b h := by
    rw [hkeys, orderBy_reverse_of_decides h]
  kept earlier key later hkeys a b h := by
    rw [hkeys, orderBy_reverse_of_not_decides h]
  missing earlier name descending later hkeys a b h ha hb := by
    have hbefore : Column.Before (.attribute name) a b := by
      rw [Column.Before, ha]
      exact Option.isSome_iff_ne_none.mpr hb
    rw [hkeys, orderBy_of_before h hbefore]

/-- Rows are compared key by key, whatever attributes they have, and where no two rows have one left
bound an answer does not depend on the order in which they are stored. -/
theorem orderBy_lexicographic : (∀ keys, Lexicographic keys) ∧
    ∀ t : Table, (t.rows.map (·.interval.left)).Nodup →
      ∀ (f : Filter) (keys : List SortKey) (rows : List Row), rows.Perm t.rows →
        sort keys (rows.filter (f.accepts ·.interval)) = t.find f keys := by
  refine ⟨lexicographic, fun t hnodup f keys rows hperm => ?_⟩
  refine sort_eq_of_perm ?_ (hperm.filter _) keys
  exact hnodup.sublist (List.filter_sublist.map _)

/-- Rows with values of several kinds, a missing one, both zeros, two that are no number, and one
moment read at two offsets. -/
def mixedTable : Table where
  rows := [
    ⟨⟨1⟩, ⟨1, 2, 0⟩, Dict.ofList [("v", .double ⟨0x7ff8000000000000⟩)]⟩,
    ⟨⟨2⟩, ⟨9, 10, 0⟩, Dict.ofList [("v", .double ⟨0x8000000000000000⟩)]⟩,
    ⟨⟨3⟩, ⟨3, 4, 0⟩, Dict.ofList [("v", .double ⟨0⟩)]⟩,
    ⟨⟨4⟩, ⟨5, 6, 0⟩, Dict.ofList []⟩,
    ⟨⟨5⟩, ⟨7, 8, 0⟩, Dict.ofList [("v", .string "a")]⟩,
    ⟨⟨6⟩, ⟨13, 14, 0⟩, Dict.ofList [("v", .instant ⟨⟨2020, 1, 1, 12, 0, 0, 0, 0⟩, by decide⟩)]⟩,
    ⟨⟨7⟩, ⟨11, 12, 0⟩, Dict.ofList [("v", .instant ⟨⟨2020, 1, 1, 14, 0, 0, 0, 120⟩, by decide⟩)]⟩,
    ⟨⟨8⟩, ⟨15, 16, 0⟩, Dict.ofList [("v", .double ⟨0xfff8000000000001⟩)]⟩]
  nextId := 9
  ascending := by decide

/-- Stored from the other end, the rows come out in the same order. -/
theorem find_mixedTable :
    let keys : List SortKey := [⟨.attribute "v", true⟩]
    let rows := mixedTable.rows.reverse
    (mixedTable.rows.map (·.interval.left)).Nodup ∧ rows.Perm mixedTable.rows ∧
      sort keys (rows.filter (Filter.all.accepts ·.interval)) = mixedTable.find Filter.all keys ∧
      mixedTable.find Filter.all keys =
        [7, 6, 5, 1, 8, 3, 2, 4].filterMap fun id => mixedTable.get? ⟨id⟩ := by
  intro keys rows
  have hlefts : (mixedTable.rows.map (·.interval.left)).Nodup := by decide
  have hperm : rows.Perm mixedTable.rows := List.reverse_perm _
  refine ⟨hlefts, hperm, orderBy_lexicographic.2 mixedTable hlefts Filter.all keys rows hperm, ?_⟩
  exact eq_sort_of_perm (by decide) (by decide +kernel) (by decide +kernel)

end SortKey

end FlatTree
