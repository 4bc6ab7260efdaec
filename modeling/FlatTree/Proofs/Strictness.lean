import FlatTree.Proofs.Grafting
import Mathlib.Data.Set.Card
import Mathlib.Logic.Relation

/-!
# Strict imports

The strict policy takes a forest only if all of it can be placed. Identities that repeat and
references to nobody are seen before anything is stored. What is left then are chains of references
that run in circles, and those show only after everything else was stored, as positions that were
never come to. A forest that is taken is stored as the lenient policy stores it, and one that is
refused leaves the store as it was.
-/

namespace FlatTree

namespace Import

variable {sentinel : Option Nat} {forest : Forest}

/-- A position that is not at the top refers to those with the external identity that it names. -/
def RefersTo (sentinel : Option Nat) (forest : Forest) (i j : Nat) : Prop :=
  ∃ n m q, forest[i]? = some n ∧ isTop sentinel n = false ∧ n.parent = some q ∧
    forest[j]? = some m ∧ m.id = some q

/-- The chain of references from a position leads to the top of the forest. -/
def Anchored (sentinel : Option Nat) (forest : Forest) (i : Nat) : Prop :=
  ∃ j n, Relation.ReflTransGen (RefersTo sentinel forest) i j ∧ forest[j]? = some n ∧
    isTop sentinel n = true

/-- A node that is not at the top refers to an external identity of the forest. -/
def Resolves (sentinel : Option Nat) (forest : Forest) (n : ExternalNode) : Prop :=
  isTop sentinel n = false → ∃ q ∈ forest.filterMap (·.id), n.parent = some q

/-- What the strict policy asks of a forest and its target. -/
structure Acceptable (sentinel : Option Nat) (forest : Forest) (t : Table) (target : NodeId) :
    Prop where
  distinct : (forest.filterMap (·.id)).Nodup
  resolved : ∀ n ∈ forest, Resolves sentinel forest n
  target : t.get? target ≠ none
  anchored : ∀ i < forest.length, Anchored sentinel forest i

/-- Why a forest is refused: the first of four reasons that applies. -/
inductive Refused (sentinel : Option Nat) (forest : Forest) (t : Table) (target : NodeId) :
    TreeError → Prop
  | repeated {earlier later : List Nat} {id : Nat} :
    forest.filterMap (·.id) = earlier ++ id :: later → earlier.Nodup → id ∈ earlier →
    Refused sentinel forest t target (.duplicateExternalId id)
  | dangling {earlier later : Forest} {n : ExternalNode} {q : Nat} :
    (forest.filterMap (·.id)).Nodup → forest = earlier ++ n :: later →
    (∀ m ∈ earlier, Resolves sentinel forest m) → isTop sentinel n = false →
    n.parent = some q → q ∉ forest.filterMap (·.id) →
    Refused sentinel forest t target (.danglingParent n.id q)
  | target : (forest.filterMap (·.id)).Nodup → (∀ n ∈ forest, Resolves sentinel forest n) →
    t.get? target = none → Refused sentinel forest t target (.invalidParent (some target))
  | unreachable {count : Nat} : (forest.filterMap (·.id)).Nodup →
    (∀ n ∈ forest, Resolves sentinel forest n) → t.get? target ≠ none → count ≠ 0 →
    count = {i | i < forest.length ∧ ¬Anchored sentinel forest i}.ncard →
    Refused sentinel forest t target (.unreachableImport count)

/-! ## Chains -/

/-- Where a reference has one possible end, so has every chain of them: there is one chain from a
position, and it either comes to the top or has no end. -/
theorem RefersTo.eq (h : (forest.filterMap (·.id)).Nodup) {i j k : Nat}
    (hj : RefersTo sentinel forest i j) (hk : RefersTo sentinel forest i k) : j = k := by
  obtain ⟨n, m, q, hn, -, hq, hm, hmq⟩ := hj
  obtain ⟨n', m', q', hn', -, hq', hm', hmq'⟩ := hk
  obtain rfl : n = n' := Option.some.inj (hn.symm.trans hn')
  obtain rfl : q = q' := Option.some.inj (hq.symm.trans hq')
  obtain ⟨hjlt, rfl⟩ := List.getElem?_eq_some_iff.mp hm
  obtain ⟨hklt, rfl⟩ := List.getElem?_eq_some_iff.mp hm'
  have hpairs := List.pairwise_iff_getElem.mp (List.pairwise_filterMap.mp h)
  rcases Nat.lt_trichotomy j k with hlt | heq | hlt
  · exact absurd rfl (hpairs j k hjlt hklt hlt q hmq q hmq')
  · exact heq
  · exact absurd rfl (hpairs k j hklt hjlt hlt q hmq' q hmq)

theorem reached_iff_anchored {i : Nat} :
    Reached sentinel forest i ↔ Anchored sentinel forest i := by
  constructor
  · intro h
    induction h with
    | @top i n hget htop => exact ⟨i, n, .refl, hget, htop⟩
    | @under i j q n m _ hm hq hget htop hparent ih =>
      obtain ⟨k, top, hchain, hk, htop'⟩ := ih
      exact ⟨k, top, hchain.head ⟨n, m, q, hget, htop, hparent, hm, hq⟩, hk, htop'⟩
  · rintro ⟨j, top, hchain, hj, htop⟩
    induction hchain using Relation.ReflTransGen.head_induction_on with
    | refl => exact .top hj htop
    | head hstep _ ih =>
      obtain ⟨n, m, q, hget, hnot, hparent, hm, hq⟩ := hstep
      exact .under ih hm hq hget hnot hparent

/-! ## References -/

theorem firstRepeated?_eq_none_iff {seen ids : List Nat} :
    firstRepeated? seen ids = none ↔ ids.Nodup ∧ ∀ id ∈ ids, id ∉ seen := by
  induction ids generalizing seen with
  | nil => simp [firstRepeated?]
  | cons id ids ih =>
    rw [firstRepeated?]
    split
    · next h => simp [h]
    · next h =>
      rw [ih]
      simp only [List.mem_cons, not_or, List.nodup_cons, forall_eq_or_imp, h, not_false_eq_true,
        true_and]
      constructor
      · rintro ⟨hn, hout⟩
        exact ⟨⟨fun hid => (hout id hid).1 rfl, hn⟩, fun x hx => (hout x hx).2⟩
      · rintro ⟨⟨hid, hn⟩, hout⟩
        exact ⟨hn, fun x hx => ⟨fun he => hid (he ▸ hx), hout x hx⟩⟩

private theorem firstRepeated?_append {seen earlier later : List Nat} {id : Nat}
    (hn : earlier.Nodup) (hseen : ∀ x ∈ earlier, x ∉ seen) (h : id ∈ earlier ∨ id ∈ seen) :
    firstRepeated? seen (earlier ++ id :: later) = some id := by
  induction earlier generalizing seen with
  | nil =>
    rw [List.nil_append, firstRepeated?, if_pos (h.resolve_left List.not_mem_nil)]
  | cons x earlier ih =>
    obtain ⟨hx, hseen⟩ := List.forall_mem_cons.mp hseen
    obtain ⟨hnot, hn⟩ := List.nodup_cons.mp hn
    rw [List.cons_append, firstRepeated?, if_neg hx]
    refine ih hn (fun y hy hmem => ?_) ?_
    · rcases List.mem_cons.mp hmem with rfl | hmem
      · exact hnot hy
      · exact hseen y hy hmem
    · rcases h with h | h
      · rcases List.mem_cons.mp h with rfl | h
        · exact .inr List.mem_cons_self
        · exact .inl h
      · exact .inr (List.mem_cons_of_mem _ h)

private theorem exists_firstRepeated {ids : List Nat} (h : ¬ids.Nodup) :
    ∃ earlier id later, ids = earlier ++ id :: later ∧ earlier.Nodup ∧ id ∈ earlier := by
  induction ids using List.reverseRecOn with
  | nil => exact absurd List.nodup_nil h
  | append_singleton ids id ih =>
    by_cases hn : ids.Nodup
    · refine ⟨ids, id, [], rfl, hn, ?_⟩
      by_contra hid
      exact h (List.nodup_append.mpr ⟨hn, List.nodup_singleton id, by
        rintro x hx _ hy rfl
        exact hid (List.mem_singleton.mp hy ▸ hx)⟩)
    · obtain ⟨earlier, x, later, rfl, hearlier, hx⟩ := ih hn
      exact ⟨earlier, x, later ++ [id], by simp, hearlier, hx⟩

/-- The identity and the reference of a node whose reference leads nowhere. -/
def dangling? (sentinel : Option Nat) (ids : List Nat) (n : ExternalNode) :
    Option (Option Nat × Nat) :=
  if isTop sentinel n then none
  else n.parent.bind fun p => if p ∈ ids then none else some (n.id, p)

theorem dangling?_eq_none_iff {n : ExternalNode} :
    dangling? sentinel (forest.filterMap (·.id)) n = none ↔ Resolves sentinel forest n := by
  rw [dangling?, Resolves]
  cases htop : isTop sentinel n with
  | true => simp
  | false =>
    cases hparent : n.parent with
    | none => simp [isTop, hparent] at htop
    | some q => simp

private theorem dangling?_of_notMem {ids : List Nat} {n : ExternalNode} {q : Nat}
    (htop : isTop sentinel n = false) (hparent : n.parent = some q) (hq : q ∉ ids) :
    dangling? sentinel ids n = some (n.id, q) := by
  simp [dangling?, htop, hparent, hq]

private theorem exists_of_not_resolves {n : ExternalNode} (h : ¬Resolves sentinel forest n) :
    isTop sentinel n = false ∧ ∃ q, n.parent = some q ∧ q ∉ forest.filterMap (·.id) := by
  rw [Resolves, Classical.not_imp] at h
  obtain ⟨htop, hnot⟩ := h
  refine ⟨htop, ?_⟩
  cases hparent : n.parent with
  | none => simp [isTop, hparent] at htop
  | some q => exact ⟨q, rfl, fun hq => hnot ⟨q, hq, hparent⟩⟩

private theorem exists_firstDangling (h : ¬∀ n ∈ forest, Resolves sentinel forest n) :
    ∃ earlier n later q, forest = earlier ++ n :: later ∧
      (∀ m ∈ earlier, Resolves sentinel forest m) ∧ isTop sentinel n = false ∧
        n.parent = some q ∧ q ∉ forest.filterMap (·.id) := by
  classical
  have hsome : (forest.find? fun n => ¬Resolves sentinel forest n).isSome = true := by
    simpa [List.find?_isSome] using h
  obtain ⟨n, hn⟩ := Option.isSome_iff_exists.mp hsome
  obtain ⟨hnot, earlier, later, hsplit, hearlier⟩ := List.find?_eq_some_iff_append.mp hn
  obtain ⟨htop, q, hparent, hq⟩ := exists_of_not_resolves (of_decide_eq_true hnot)
  exact ⟨earlier, n, later, q, hsplit, fun m hm => by simpa using hearlier m hm, htop, hparent, hq⟩

theorem checkReferences_eq (sentinel : Option Nat) (forest : Forest) :
    checkReferences sentinel forest =
      match firstRepeated? [] (forest.filterMap (·.id)) with
      | some id => .error (.duplicateExternalId id)
      | none =>
        match forest.findSome? (dangling? sentinel (forest.filterMap (·.id))) with
        | some (id, p) => .error (.danglingParent id p)
        | none => .ok () :=
  rfl

/-- The references are in order if no identity repeats and every reference leads somewhere. -/
theorem checkReferences_of_resolves (hn : (forest.filterMap (·.id)).Nodup)
    (hr : ∀ n ∈ forest, Resolves sentinel forest n) : checkReferences sentinel forest = .ok () := by
  have hnone : forest.findSome? (dangling? sentinel (forest.filterMap (·.id))) = none :=
    List.findSome?_eq_none_iff.mpr fun n hmem => dangling?_eq_none_iff.mpr (hr n hmem)
  have hfirst : firstRepeated? [] (forest.filterMap (·.id)) = none :=
    firstRepeated?_eq_none_iff.mpr ⟨hn, fun _ _ => List.not_mem_nil⟩
  rw [checkReferences_eq, hfirst, hnone]

private theorem checkReferences_of_repeated {earlier later : List Nat} {id : Nat}
    (hsplit : forest.filterMap (·.id) = earlier ++ id :: later) (hn : earlier.Nodup)
    (hid : id ∈ earlier) :
    checkReferences sentinel forest = .error (.duplicateExternalId id) := by
  have hfirst : firstRepeated? [] (forest.filterMap (·.id)) = some id :=
    hsplit ▸ firstRepeated?_append hn (fun _ _ => List.not_mem_nil) (.inl hid)
  rw [checkReferences_eq, hfirst]

private theorem checkReferences_of_dangling {earlier later : Forest} {n : ExternalNode} {q : Nat}
    (hn : (forest.filterMap (·.id)).Nodup) (hsplit : forest = earlier ++ n :: later)
    (hearlier : ∀ m ∈ earlier, Resolves sentinel forest m) (htop : isTop sentinel n = false)
    (hparent : n.parent = some q) (hq : q ∉ forest.filterMap (·.id)) :
    checkReferences sentinel forest = .error (.danglingParent n.id q) := by
  have hfirst : firstRepeated? [] (forest.filterMap (·.id)) = none :=
    firstRepeated?_eq_none_iff.mpr ⟨hn, fun _ _ => List.not_mem_nil⟩
  have hsome : forest.findSome? (dangling? sentinel (forest.filterMap (·.id))) = some (n.id, q) :=
    List.findSome?_eq_some_iff.mpr ⟨earlier, n, later, hsplit, dangling?_of_notMem htop hparent hq,
      fun m hm => dangling?_eq_none_iff.mpr (hearlier m hm)⟩
  rw [checkReferences_eq, hfirst, hsome]

/-! ## What is left out -/

/-- An import leaves out as many nodes as there are positions without a chain to the top. -/
theorem Grafted.length_dropped {target : NodeId} {before after : Outline} {report : ImportReport}
    {place : Nat → NodeId} (h : Grafted sentinel forest target before after report place) :
    report.dropped.length = {i | i < forest.length ∧ ¬Anchored sentinel forest i}.ncard := by
  have hset : {i | i < forest.length ∧ ¬Anchored sentinel forest i} =
      (report.dropped.toFinset : Set Nat) := by
    ext i
    rw [Set.mem_ofPred_eq, ← reached_iff_anchored, ← h.dropped i, List.coe_toFinset,
      Set.mem_ofPred_eq]
  rw [hset, Set.ncard_coe_finset, List.toFinset_card_of_nodup (h.ascending.imp Nat.ne_of_lt)]

theorem Grafted.dropped_eq_nil_iff {target : NodeId} {before after : Outline}
    {report : ImportReport} {place : Nat → NodeId}
    (h : Grafted sentinel forest target before after report place) :
    report.dropped = [] ↔ ∀ i < forest.length, Anchored sentinel forest i := by
  rw [List.eq_nil_iff_forall_not_mem]
  simp only [h.dropped, reached_iff_anchored, not_and, not_not]

/-- A forest that is not refused is acceptable. -/
theorem refused_or_acceptable (sentinel : Option Nat) (forest : Forest) (t : Table)
    (target : NodeId) :
    (∃ e, Refused sentinel forest t target e) ∨ Acceptable sentinel forest t target := by
  by_cases hn : (forest.filterMap (·.id)).Nodup
  case neg =>
    obtain ⟨earlier, id, later, hsplit, hearlier, hid⟩ := exists_firstRepeated hn
    exact .inl ⟨_, .repeated hsplit hearlier hid⟩
  by_cases hr : ∀ n ∈ forest, Resolves sentinel forest n
  case neg =>
    obtain ⟨earlier, n, later, q, hsplit, hearlier, htop, hparent, hq⟩ := exists_firstDangling hr
    exact .inl ⟨_, .dangling hn hsplit hearlier htop hparent hq⟩
  by_cases ht : t.get? target = none
  case pos => exact .inl ⟨_, .target hn hr ht⟩
  by_cases ha : ∀ i < forest.length, Anchored sentinel forest i
  case pos => exact .inr ⟨hn, hr, ht, ha⟩
  refine .inl ⟨_, .unreachable hn hr ht ?_ rfl⟩
  obtain ⟨i, hi, hnot⟩ : ∃ i < forest.length, ¬Anchored sentinel forest i := by
    simpa using ha
  have hfinite : {i | i < forest.length ∧ ¬Anchored sentinel forest i}.Finite :=
    (Set.finite_lt_nat forest.length).subset fun _ h => h.1
  exact Set.ncard_ne_zero_of_mem ⟨hi, hnot⟩ hfinite

end Import

/-- The strict policy does the same work as the lenient one, and fails at the end if anything was
left out. -/
theorem Work.importForest_fail (w : Work) (sentinel : Option Nat) (forest : Forest)
    (target : NodeId) :
    w.importForest ⟨sentinel, .fail⟩ forest target =
      match w.importForest ⟨sentinel, .drop⟩ forest target with
      | .error e => .error e
      | .ok (report, w') =>
        if report.dropped = [] then .ok (report, w')
        else .error (.unreachableImport report.dropped.length) := by
  simp only [importForest]
  cases w.table.get? target with
  | none => rfl
  | some r =>
    generalize Import.run sentinel forest _ _ = done
    cases done with
    | error e => rfl
    | ok p => by_cases h : p.waiting = [] <;> simp [h]

namespace Store

variable {s : Store} {sentinel : Option Nat} {forest : Forest} {target : NodeId}

/-- What the strict policy does once the references are in order. -/
theorem importForest_of_resolves (hn : (forest.filterMap (·.id)).Nodup)
    (hr : ∀ n ∈ forest, Import.Resolves sentinel forest n) :
    s.importForest Faults.none ⟨sentinel, .fail⟩ forest target =
      s.change Faults.none fun w => w.importForest ⟨sentinel, .fail⟩ forest target := by
  simp [importForest, Import.checkReferences_of_resolves hn hr]

/-- Under a node that is there, the references being in order, it depends on what was left out. -/
theorem importForest_fail_eq (h : s.table.Sound) (hn : (forest.filterMap (·.id)).Nodup)
    (hr : ∀ n ∈ forest, Import.Resolves sentinel forest n) (ht : s.table.get? target ≠ none) :
    ∃ report before after place,
      Import.Grafted sentinel forest target before after report place ∧
      (s.importForest Faults.none ⟨sentinel, .drop⟩ forest target).1 = .ok report ∧
      s.importForest Faults.none ⟨sentinel, .fail⟩ forest target =
        if report.dropped = [] then s.importForest Faults.none ⟨sentinel, .drop⟩ forest target
        else (.error (.unreachableImport report.dropped.length), s) := by
  obtain ⟨o, ho⟩ := Table.sound_iff_draws.mp h
  obtain ⟨r, hget⟩ := Option.ne_none_iff_exists'.mp ht
  obtain ⟨hmem, rfl⟩ := Table.get?_eq_some_iff.mp hget
  obtain ⟨log, now, p, hend, hdrop⟩ := Work.exists_sofar (w := ⟨s.table, Quota.unlimited⟩) ho rfl
    (ho.id_mem hmem) sentinel forest
  have hlenient : s.importForest Faults.none ⟨sentinel, .drop⟩ forest r.id =
      (.ok ⟨p.inserted, p.idMap, p.waiting⟩, ⟨p.work.table, s.version.next⟩) := by
    rw [importForest, change_none, hdrop]
  refine ⟨_, o, now, _, hend.grafted, by rw [hlenient], ?_⟩
  rw [importForest_of_resolves hn hr, change_none, Work.importForest_fail, hdrop, hlenient]
  by_cases hleft : p.waiting = []
  · simp [hleft]
  · simp [hleft]

/-- A forest that is refused fails with the reason, and leaves the store as it was. -/
theorem importForest_of_refused (h : s.table.Sound) {e : TreeError}
    (he : Import.Refused sentinel forest s.table target e) :
    s.importForest Faults.none ⟨sentinel, .fail⟩ forest target = (.error e, s) := by
  cases he with
  | «repeated» hsplit hearlier hid =>
    simp [importForest, Import.checkReferences_of_repeated hsplit hearlier hid]
  | dangling hn hsplit hearlier htop hparent hq =>
    simp [importForest, Import.checkReferences_of_dangling hn hsplit hearlier htop hparent hq]
  | target hn hr ht => simp [importForest_of_resolves hn hr, change_none, Work.importForest, ht]
  | unreachable hn hr ht hne hcount =>
    obtain ⟨report, before, after, place, hgrafted, -, heq⟩ := importForest_fail_eq h hn hr ht
    rw [← hgrafted.length_dropped] at hcount
    subst hcount
    rw [heq, if_neg fun hnil => hne (by rw [hnil]; rfl)]

/-- A forest that is acceptable is stored as under the lenient policy, and nothing is left out. -/
theorem importForest_of_acceptable (h : s.table.Sound)
    (ha : Import.Acceptable sentinel forest s.table target) :
    s.importForest Faults.none ⟨sentinel, .fail⟩ forest target =
        s.importForest Faults.none ⟨sentinel, .drop⟩ forest target ∧
      ∃ report, (s.importForest Faults.none ⟨sentinel, .fail⟩ forest target).1 = .ok report ∧
        report.dropped = [] := by
  obtain ⟨report, before, after, place, hgrafted, hok, heq⟩ :=
    importForest_fail_eq h ha.distinct ha.resolved ha.target
  have hnil := hgrafted.dropped_eq_nil_iff.mpr ha.anchored
  rw [heq, if_pos hnil]
  exact ⟨rfl, report, hok, hnil⟩

theorem not_acceptable_of_refused (h : s.table.Sound) {e : TreeError}
    (he : Import.Refused sentinel forest s.table target e) :
    ¬Import.Acceptable sentinel forest s.table target := by
  intro ha
  obtain ⟨-, report, hok, -⟩ := importForest_of_acceptable h ha
  rw [importForest_of_refused h he] at hok
  cases hok

/-- How an import under a node of a tree ends, under either policy: the strict one may refuse the
forest, and otherwise it is grafted onto the tree. -/
theorem importForest_cases {before : Outline} (h : s.table.Draws before)
    (htarget : target ∈ before.ids) (settings : ImportSettings) (forest : Forest) :
    (∃ e, settings.dangling = .fail ∧ Import.Refused settings.sentinel forest s.table target e ∧
      s.importForest Faults.none settings forest target = (.error e, s)) ∨
    ∃ report t after place,
      s.importForest Faults.none settings forest target = (.ok report, ⟨t, s.version.next⟩) ∧
      t.Draws after ∧
      Import.Grafted settings.sentinel forest target before after report place ∧
      (settings.dangling = .fail →
        Import.Acceptable settings.sentinel forest s.table target) := by
  have hsound : s.table.Sound := Table.sound_iff_draws.mpr ⟨before, h⟩
  obtain ⟨sentinel, dangling⟩ := settings
  obtain ⟨log, now, p, hend, hdrop⟩ := Work.exists_sofar (w := ⟨s.table, Quota.unlimited⟩) h rfl
    htarget sentinel forest
  have hlenient : s.importForest Faults.none ⟨sentinel, .drop⟩ forest target =
      (.ok ⟨p.inserted, p.idMap, p.waiting⟩, ⟨p.work.table, s.version.next⟩) := by
    rw [importForest, change_none, hdrop]
  cases dangling with
  | drop => exact .inr ⟨_, _, now, _, hlenient, hend.draws, hend.grafted, fun h => by cases h⟩
  | fail =>
    rcases Import.refused_or_acceptable sentinel forest s.table target with ⟨e, he⟩ | ha
    · exact .inl ⟨e, rfl, he, importForest_of_refused hsound he⟩
    · obtain ⟨hsame, -⟩ := importForest_of_acceptable hsound ha
      exact .inr ⟨_, _, now, _, hsame.trans hlenient, hend.draws, hend.grafted, fun _ => ha⟩

/-- The strict policy takes just the acceptable forests, and stores them as the lenient policy does,
with nothing left out. Any other forest it refuses for the first reason that applies, and the store
is as it was. -/
theorem importForest_strict {s : Store} (h : s.table.Sound) (sentinel : Option Nat)
    (forest : Forest) (target : NodeId) :
    let strict := s.importForest Faults.none ⟨sentinel, .fail⟩ forest target
    let lenient := s.importForest Faults.none ⟨sentinel, .drop⟩ forest target
    ((∃ report, strict.1 = .ok report) ↔ Import.Acceptable sentinel forest s.table target) ∧
      (∀ e, strict.1 = .error e ↔ Import.Refused sentinel forest s.table target e) ∧
      (∀ e, strict.1 = .error e → strict.2 = s) ∧
      ∀ report, strict.1 = .ok report → strict = lenient ∧ report.dropped = [] := by
  intro strict lenient
  rcases Import.refused_or_acceptable sentinel forest s.table target with ⟨e, he⟩ | ha
  · have hstrict : strict = (.error e, s) := importForest_of_refused h he
    refine ⟨⟨?_, fun ha => ?_⟩, fun e' => ⟨?_, fun he' => ?_⟩, ?_, ?_⟩
    · rintro ⟨report, hok⟩
      rw [hstrict] at hok
      cases hok
    · obtain ⟨-, report, hok, -⟩ := importForest_of_acceptable h ha
      exact ⟨report, hok⟩
    · intro herror
      rw [hstrict] at herror
      cases herror
      exact he
    · exact congrArg Prod.fst (importForest_of_refused h he')
    · intro _ _
      rw [hstrict]
    · intro report hok
      rw [hstrict] at hok
      cases hok
  · obtain ⟨hsame, report, hok, hnil⟩ := importForest_of_acceptable h ha
    refine ⟨⟨fun _ => ha, fun _ => ⟨report, hok⟩⟩, fun e => ⟨?_, fun he => ?_⟩, ?_, ?_⟩
    · intro herror
      cases hok.symm.trans herror
    · exact congrArg Prod.fst (importForest_of_refused h he)
    · intro e herror
      cases hok.symm.trans herror
    · intro report' hok'
      cases hok.symm.trans hok'
      exact ⟨hsame, hnil⟩

/-- Under a lone root: two nodes that refer to each other beside one that stands at the top. -/
theorem importForest_strict_circle :
    let s : Store := ⟨(Table.empty.insert Dict.empty Interval.root).2, ⟨1⟩⟩
    let forest : Forest := [.bare (some 5) none, .bare (some 7) (some 8), .bare (some 8) (some 7)]
    let strict := s.importForest Faults.none ⟨some 0, .fail⟩ forest ⟨1⟩
    let lenient := s.importForest Faults.none ⟨some 0, .drop⟩ forest ⟨1⟩
    s.table.Sound ∧
      ((∃ report, strict.1 = .ok report) ↔ Import.Acceptable (some 0) forest s.table ⟨1⟩) ∧
      (∀ e, strict.1 = .error e ↔ Import.Refused (some 0) forest s.table ⟨1⟩ e) ∧
      (∀ e, strict.1 = .error e → strict.2 = s) ∧
      ∀ report, strict.1 = .ok report → strict = lenient ∧ report.dropped = [] := by
  intro s forest strict lenient
  have hsound : s.table.Sound :=
    Table.sound_iff_draws.mpr ⟨_, Table.Draws.empty.plant rfl Dict.empty⟩
  exact ⟨hsound, importForest_strict hsound (some 0) forest ⟨1⟩⟩

end Store

end FlatTree
