import FlatTree.Proofs.Atomicity
import FlatTree.Proofs.Soundness
import FlatTree.Proofs.Words

/-!
# Counts attached to held nodes

Nodes that were fetched are copies, and the store goes on without them. Counts are attached to them
by their identities alone, from what the store has now: up to the first copy whose node is gone each
gets its count, and nothing else of any copy changes. On the tables that commands lead to the count
is the one that the tree has. Children are told by a depth that is counted on in its word, which it
has to fit.
-/

namespace FlatTree

/-- The count of children that a node carries, or that of all descendants. -/
def Node.count (directOnly : Bool) (n : Node) : Option Nat :=
  if directOnly then n.directChildren else n.descendants

/-- How many nodes stand right below a node, or below it at all. -/
def Grove.countBelow (directOnly : Bool) (id : NodeId) (g : Grove Item) : Nat :=
  if directOnly then (g.childrenOf id).length
  else (g.subtree? id).elim 0 (·.below.size)

/-- The position of the first node that is no longer stored, or the end. -/
def Table.firstGone (t : Table) (held : List Node) : Nat :=
  held.findIdx fun n => (t.get? n.id).isNone

/-- Counts attached to held nodes. Each node keeps its row and its other count; those before the
first one that is gone get the count that the table has for their identity, which is what the filter
of words counts around the stored row; the others stay as they are, and the failure tells which one
is gone. -/
structure Table.Attached (t : Table) (directOnly : Bool) (held held' : List Node)
    (failure : Option TreeError) : Prop where
  rows : held'.map Node.toRow = held.map Node.toRow
  other : held'.map (Node.count !directOnly) = held.map (Node.count !directOnly)
  counted : ∀ i < t.firstGone held, ∃ n n' r k, held[i]? = some n ∧ held'[i]? = some n' ∧
    t.get? n.id = some r ∧ k = t.count (Filter.wordBelow r.interval directOnly) ∧
    t.childCount n.id directOnly = .ok k ∧ n'.count directOnly = some k
  kept : held'.drop (t.firstGone held) = held.drop (t.firstGone held)
  failure : failure = held[t.firstGone held]?.map fun n => .notFound n.id

/-! ## One pass over the nodes -/

namespace Table

variable {t : Table} {o : Outline} {directOnly : Bool} {held : List Node} {i : Nat}

/-- Whatever its place was when it was fetched, a node gets the count of its identity. -/
theorem count_counted (t : Table) (directOnly : Bool) (n : Node) :
    (t.counted directOnly n).count directOnly = (t.childCount n.id directOnly).toOption := by
  cases directOnly <;> rfl

private theorem count_not_counted (t : Table) (directOnly : Bool) (n : Node) :
    (t.counted directOnly n).count (!directOnly) = n.count !directOnly := by
  cases directOnly <;> rfl

theorem firstGone_le_length (t : Table) (held : List Node) : t.firstGone held ≤ held.length :=
  List.findIdx_le_length

/-- Before the first node that is gone each one is stored. -/
theorem exists_stored (h : i < t.firstGone held) :
    ∃ n r, held[i]? = some n ∧ t.get? n.id = some r := by
  have hi := Nat.lt_of_lt_of_le h (t.firstGone_le_length held)
  have hstored : (t.get? held[i].id).isNone = false := List.not_of_lt_findIdx h
  obtain ⟨r, hr⟩ := Option.isSome_iff_exists.mp (Option.isNone_eq_false_iff.mp hstored)
  exact ⟨held[i], r, List.getElem?_eq_getElem hi, hr⟩

theorem firstGone_eq (t : Table) (held : List Node) :
    t.firstGone held = held.findIdx fun n => !(t.get? n.id).isSome := by
  simp only [firstGone, Option.not_isSome]

theorem annotate_fst (t : Table) (directOnly : Bool) (held : List Node) :
    (t.annotate directOnly held).1 =
      (held.take (t.firstGone held)).map (t.counted directOnly) ++
        held.drop (t.firstGone held) := by
  rw [annotate_eq, firstGone_eq, ← List.takeWhile_eq_take_findIdx_not,
    ← List.dropWhile_eq_drop_findIdx_not]

theorem annotate_snd (t : Table) (directOnly : Bool) (held : List Node) :
    (t.annotate directOnly held).2 =
      (held[t.firstGone held]?.map fun n => TreeError.notFound n.id).elim (.ok ()) .error := by
  rw [annotate_eq, firstGone_eq, ← List.head?_drop, ← List.dropWhile_eq_drop_findIdx_not]
  cases held.dropWhile fun n => (t.get? n.id).isSome <;> rfl

private theorem length_counted (t : Table) (directOnly : Bool) (held : List Node) :
    ((held.take (t.firstGone held)).map (t.counted directOnly)).length = t.firstGone held := by
  rw [List.length_map, List.length_take, Nat.min_eq_left (t.firstGone_le_length held)]

/-- Before the first node that is gone each one gets the count that the table has for it. -/
theorem exists_counted (directOnly : Bool) (h : i < t.firstGone held) :
    ∃ n r, held[i]? = some n ∧ t.get? n.id = some r ∧
      (t.annotate directOnly held).1[i]? = some (t.counted directOnly n) ∧
      t.childCount n.id directOnly = .ok (t.count (Filter.below r.interval directOnly)) ∧
      (t.counted directOnly n).count directOnly =
        some (t.count (Filter.below r.interval directOnly)) := by
  obtain ⟨n, r, hn, hr⟩ := exists_stored h
  obtain ⟨hmem, hid⟩ := get?_eq_some_iff.mp hr
  have hcount := childCount_of_mem hmem directOnly
  rw [hid] at hcount
  refine ⟨n, r, hn, hr, ?_, hcount, ?_⟩
  · have hlt := h.trans_eq (t.length_counted directOnly held).symm
    rw [annotate_fst, List.getElem?_append_left hlt, List.getElem?_map,
      List.getElem?_take_of_lt h, hn]
    rfl
  · rw [count_counted, hcount]
    rfl

theorem attached_annotate (held : List Node) (hfit : directOnly = true → t.DepthsFit) :
    t.Attached directOnly held (t.annotate directOnly held).1
      (held[t.firstGone held]?.map fun n => .notFound n.id) where
  rows := t.annotate_rows directOnly held
  other := by
    have hcounted : (held.take (t.firstGone held)).map (Node.count (!directOnly) ∘
        t.counted directOnly) = (held.take (t.firstGone held)).map (Node.count !directOnly) :=
      List.map_congr_left fun n _ => t.count_not_counted directOnly n
    rw [annotate_fst, List.map_append, List.map_map, hcounted, ← List.map_append,
      List.take_append_drop]
  counted i hi := by
    obtain ⟨n, r, hn, hr, hn', hcount, hk⟩ := exists_counted directOnly hi
    have hmem := (get?_eq_some_iff.mp hr).1
    have hword : Filter.wordBelow r.interval directOnly = Filter.below r.interval directOnly :=
      Filter.wordBelow_eq_iff.mpr fun hdirect => hfit hdirect r hmem
    exact ⟨n, _, r, _, hn, hn', hr, congrArg t.count hword.symm, hcount, hk⟩
  kept := by
    rw [annotate_fst, List.drop_left' (t.length_counted directOnly held)]
  failure := rfl

/-- The count of a stored node is that of the tree. -/
theorem Draws.childCount_eq (h : t.Draws o) {r : Row} (hr : r ∈ t.rows) (directOnly : Bool) :
    t.childCount r.id directOnly = .ok (o.grove.countBelow directOnly r.id) := by
  obtain ⟨below, hsub, -⟩ := h.subtree? hr
  rw [childCount_of_perm h.rows hr hsub, Grove.countBelow, hsub]
  rfl

end Table

/-! ## Between fetching and counting -/

namespace Session

/-- Whether a command takes new copies. -/
def Command.fetches : Command → Bool
  | .hold _ => true
  | _ => false

/-- Only fetching changes more of the held nodes than their counts. -/
theorem rows_held_run (s : Session) (useSecond : Bool) {c : Command} (hc : c.fetches = false) :
    (s.run useSecond c).2.held.map Node.toRow = s.held.map Node.toRow := by
  cases c with
  | hold ids => cases hc
  | annotateHeld directOnly => exact s.store.table.annotate_rows directOnly s.held
  | childrenOf parent directOnly order mode =>
    simp only [run, ordered]
    split <;> rfl
  | viewChildrenOf parent order mode =>
    simp only [run, ordered]
    split <;> rfl
  | _ => rfl

private theorem rows_held_finish (s : Session) {commands : List (Bool × Command)}
    (h : ∀ c ∈ commands, c.2.fetches = false) :
    (s.finish commands).held.map Node.toRow = s.held.map Node.toRow := by
  induction commands generalizing s with
  | nil => rfl
  | cons c commands ih =>
    obtain ⟨hc, hcommands⟩ := List.forall_mem_cons.mp h
    exact (ih _ hcommands).trans (s.rows_held_run c.1 hc)

theorem Reachable.finish {s : Session} (h : Reachable s.store) {commands : List (Bool × Command)}
    (hcommands : ∀ c ∈ commands, c.2.Managed) : Reachable (s.finish commands).store := by
  induction commands generalizing s with
  | nil => exact h
  | cons c commands ih =>
    obtain ⟨hc, hcommands⟩ := List.forall_mem_cons.mp hcommands
    exact ih (.run s c.1 c.2 h hc) hcommands

/-- Counts attached to any nodes on any table, whose depths can be counted on where children are to
be told, go by identity up to the first node that is gone. Over a run that does not fetch again the
held nodes keep their rows, so the counts they get at its end are those of the nodes that were
fetched; and on the tables that commands lead to they are the numbers of nodes that the tree has
below them. -/
theorem held_nodes_get_current_counts :
    (∀ (t : Table) (directOnly : Bool) (held : List Node), (directOnly = true → t.DepthsFit) →
      ∃ failure, t.Attached directOnly held (t.annotate directOnly held).1 failure ∧
        (t.annotate directOnly held).2 = failure.elim (.ok ()) .error) ∧
    (∀ (s : Session) (commands : List (Bool × Command)),
      (∀ c ∈ commands, c.2.fetches = false) → ∀ useSecond directOnly,
        let before := s.finish commands
        let after := before.run useSecond (.annotateHeld directOnly)
        (directOnly = true → before.store.table.DepthsFit) →
          ∃ failure, after.1 = .ok (.annotated failure after.2.held) ∧
            after.2.store = before.store ∧
            after.2.held.map Node.toRow = s.held.map Node.toRow ∧
            before.store.table.Attached directOnly before.held after.2.held failure) ∧
    ∀ s, Reachable s → ∃ o, s.table.Draws o ∧
      ∀ directOnly held, ∀ i < s.table.firstGone held, ∃ n n', held[i]? = some n ∧
        (s.table.annotate directOnly held).1[i]? = some n' ∧
        n'.count directOnly = some (o.grove.countBelow directOnly n.id) := by
  refine ⟨fun t directOnly held hfit => ⟨_, Table.attached_annotate held hfit,
    t.annotate_snd directOnly held⟩, fun s commands hcommands useSecond directOnly => ?_,
    fun s hs => ?_⟩
  · intro before after hfit
    have hattached := Table.attached_annotate before.held hfit
    refine ⟨_, ?_, rfl, hattached.rows.trans (s.rows_held_finish hcommands), hattached⟩
    have hsnd := before.store.table.annotate_snd directOnly before.held
    simp only [after, run, hsnd]
    cases before.held[before.store.table.firstGone before.held]? <;> rfl
  · obtain ⟨o, ho⟩ := Table.sound_iff_draws.mp hs.sound
    refine ⟨o, ho, fun directOnly held i hi => ?_⟩
    obtain ⟨n, r, hn, hr, hn', hk, hcount⟩ := Table.exists_counted directOnly hi
    obtain ⟨hmem, hid⟩ := Table.get?_eq_some_iff.mp hr
    have htree := ho.childCount_eq hmem directOnly
    rw [hid, hk] at htree
    exact ⟨n, _, hn, hn', Except.ok.inj htree ▸ hcount⟩

/-- The root is held twice, with a leaf between. Then the leaf is taken out and two others come: the
first copy gets the count of now, and the second one is gone. -/
theorem held_nodes_get_current_counts_stale :
    let s := (start .default .default).finish [(false, .insertRoot Dict.empty),
      (false, .insert (some ⟨1⟩) Dict.empty), (false, .hold [⟨1⟩, ⟨2⟩, ⟨1⟩])]
    let commands := [(true, .delete ⟨2⟩ true), (true, .insert (some ⟨1⟩) Dict.empty),
      (false, .insert none Dict.empty)]
    let before := s.finish commands
    let after := before.run false (.annotateHeld true)
    (∀ c ∈ commands, c.2.fetches = false) ∧ Reachable before.store ∧
      before.store.table.DepthsFit ∧
      after.1 = .ok (.annotated (some (.notFound ⟨2⟩)) after.2.held) ∧
      after.2.held.map Node.toRow = s.held.map Node.toRow ∧
      after.2.held.map (·.directChildren) = [some 2, none, none] ∧
      ∃ o, before.store.table.Draws o ∧ o.grove.countBelow true ⟨1⟩ = 2 := by
  intro s commands before after
  have hfetches : ∀ c ∈ commands, c.2.fetches = false := by decide
  have hmanaged : ∀ c ∈ commands, c.2.Managed := by simp [commands, Command.Managed]
  have hreachable : Reachable before.store :=
    .finish (.finish .empty (by simp [Command.Managed])) hmanaged
  have hfit : before.store.table.DepthsFit := by decide +kernel
  obtain ⟨failure, hanswer, -, hrows, hattached⟩ :=
    held_nodes_get_current_counts.2.1 s commands hfetches false true fun _ => hfit
  have hfailure : failure = some (.notFound ⟨2⟩) := by
    rw [hattached.failure]
    decide +kernel
  have hcounts : after.2.held.map (·.directChildren) = [some 2, none, none] := by decide +kernel
  obtain ⟨o, ho, hcount⟩ := held_nodes_get_current_counts.2.2 before.store hreachable
  obtain ⟨n, n', hn, hn', hk⟩ := hcount true before.held 0 (by decide +kernel)
  have hid : before.held[0]?.map (·.id) = some ⟨1⟩ := by decide +kernel
  have htwo : (before.store.table.annotate true before.held).1[0]?.map (Node.count true) =
      some (some 2) := by decide +kernel
  rw [hn, Option.map_some, Option.some.injEq] at hid
  rw [hn', Option.map_some, Option.some.injEq, hk, hid, Option.some.injEq] at htwo
  exact ⟨hfetches, hreachable, hfit, hfailure ▸ hanswer, hrows, hcounts, o, ho, htwo⟩

end Session
end FlatTree
