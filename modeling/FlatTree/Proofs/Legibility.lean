import FlatTree.Proofs.Atoms

/-!
# What reading yields

Not every value can be read from a text. The name of a keyword that was read is one that can be
read, an instant has a year of four digits, and the keys of a map that are keywords consist of the
characters of atoms, also if the map was read behind a namespace for its keys. All values inside a
value that was read are again of this kind.
-/

namespace FlatTree

/-! ## Digits of a fixed number -/

private theorem natOfDigits_lt {ds : List Char} (h : ∀ c ∈ ds, c.isDigit = true) :
    natOfDigits ds < 10 ^ ds.length := by
  have hgeneral : ∀ start, ds.foldl (fun n c => 10 * n + (c.toNat - '0'.toNat)) start <
      (start + 1) * 10 ^ ds.length := by
    induction ds with
    | nil => exact fun start => by simp
    | cons c ds ih =>
      intro start
      obtain ⟨hc, hds⟩ := List.forall_mem_cons.mp h
      have hdigit : c.toNat - '0'.toNat < 10 := by
        have hhigh : c.toNat ≤ 57 := of_decide_eq_true ((Bool.and_eq_true _ _).mp hc).2
        have hzero : '0'.toNat = 48 := rfl
        omega
      have hrest := ih hds (10 * start + (c.toNat - '0'.toNat))
      rw [List.foldl_cons, List.length_cons, Nat.pow_succ]
      refine Nat.lt_of_lt_of_le hrest ?_
      rw [Nat.mul_comm (10 ^ ds.length), ← Nat.mul_assoc]
      exact Nat.mul_le_mul_right _ (by omega)
  exact Nat.lt_of_lt_of_eq (hgeneral 0) (by simp)

private theorem takeDigits?_lt {width n : Nat} {cs rest : List Char}
    (h : takeDigits? width cs = some (n, rest)) : n < 10 ^ width := by
  simp only [takeDigits?] at h
  split at h
  · next hds =>
    cases h
    have hlt := natOfDigits_lt (List.all_eq_true.mp hds.2)
    rwa [hds.1] at hlt
  · cases h

/-- Years are read from four digits. -/
theorem Instant.year_of_read? {cs : List Char} {t : Instant} (h : Instant.read? cs = some t) :
    0 ≤ t.reading.year ∧ t.reading.year < 10000 := by
  rw [Instant.read?] at h
  obtain ⟨r, hr, h⟩ := Option.bind_eq_some_iff.mp h
  have hyear : ∃ n : Nat, r.year = n ∧ n < 10000 := by
    simp only [Instant.readClock?, Option.bind_eq_bind, Option.bind_eq_some_iff] at hr
    obtain ⟨⟨year, rest⟩, hyear, _, -, _, -, _, -, _, -, _, -, _, -, _, -, _, -, _, -, _, -, _, -,
      _, -, hr⟩ := hr
    cases hr
    exact ⟨year, rfl, takeDigits?_lt hyear⟩
  obtain ⟨n, hn, hlt⟩ := hyear
  split at h
  · cases h
    dsimp only
    omega
  · cases h

namespace Edn

/-! ## Values that can be read -/

/-- The text of the name is made of what atoms are made of. -/
def Name.Scans (n : Name) : Prop :=
  ∀ c ∈ n.qualified.toList, isAtomChar c = true

namespace Value

/-- Values of which reading says nothing more than their kind. -/
def isPlain : Value → Bool
  | .keyword _ | .list _ | .vector _ | .map _ | .instant _ => false
  | _ => true

/-- What holds of every value that was read. -/
inductive Legible : Value → Prop
  | keyword {n : Name} : n.Scans → readName n.qualified.toList = .ok n → Legible (.keyword n)
  | list {items : List Value} : (∀ v ∈ items, Legible v) → Legible (.list items)
  | vector {items : List Value} : (∀ v ∈ items, Legible v) → Legible (.vector items)
  | map {entries : List (Value × Value)} : (∀ e ∈ entries, ∀ n, e.1 = .keyword n → n.Scans) →
    (∀ e ∈ entries, Legible e.2) → Legible (.map entries)
  | instant {t : Instant} : 0 ≤ t.reading.year → t.reading.year < 10000 → Legible (.instant t)
  | plain {v : Value} : v.isPlain = true → Legible v

theorem Legible.scans {n : Name} (h : Legible (.keyword n)) : n.Scans := by
  cases h with
  | keyword hscans _ => exact hscans
  | plain hplain => cases hplain

end Value

/-! ### Atoms -/

theorem isAtomChar_of_mem_scanAtom {cs : List Char} {c : Char} (h : c ∈ (scanAtom cs).1) :
    isAtomChar c = true := by
  fun_induction scanAtom cs with
  | case1 => cases h
  | case2 cs d rest hcomment hlen hd atom rest' hscan ih =>
    rcases List.mem_cons.mp h with rfl | h
    · exact hd
    · exact ih (hscan ▸ h)
  | case3 => cases h

private theorem isPlain_of_readNumber {cs : List Char} {v : Value} (h : readNumber cs = .ok v) :
    v.isPlain = true := by
  simp only [readNumber] at h
  split at h
  · split at h
    · cases h
      rfl
    · cases h
  split at h
  · split at h
    · cases h
      rfl
    · cases h
  split at h
  · cases h
  split at h
  · split at h
    · cases h
      rfl
    · cases h
  · split at h
    · split at h
      · cases h
        rfl
      · cases h
    · cases h

private theorem legible_of_readAtom {cs : List Char} (hcs : ∀ c ∈ cs, isAtomChar c = true)
    {v : Value} (h : readAtom cs = .ok v) : v.Legible := by
  rw [readAtom.eq_def] at h
  split at h
  · cases h
    exact .plain rfl
  split at h
  · cases h
    exact .plain rfl
  split at h
  · cases h
    exact .plain rfl
  split at h
  · next body _ _ _ =>
    split at h
    · next n hn =>
      cases h
      have htext : n.qualified.toList = body := by
        rw [eq_ofQualified_of_readName hn, Name.qualified_ofQualified, String.toList_ofList]
      refine .keyword ?_ (htext ▸ hn)
      intro c hc
      exact hcs c (List.mem_cons_of_mem _ (htext ▸ hc))
    · cases h
  · split at h
    · split at h
      · exact .plain (isPlain_of_readNumber h)
      · cases h
        exact .plain rfl
    · cases h

/-! ### Maps -/

section

variable {K V : Value → Prop}

/-- What holds of the keys and the values holds of them after one more was written. -/
theorem forall_put {k v : Value} (hk : K k) (hv : V v) {es : List (Value × Value)}
    (h : ∀ e ∈ es, K e.1 ∧ V e.2) : ∀ e ∈ Entries.put k v es, K e.1 ∧ V e.2 := by
  induction es with
  | nil => exact List.forall_mem_singleton.mpr ⟨hk, hv⟩
  | cons e es ih =>
    obtain ⟨he, hes⟩ := List.forall_mem_cons.mp h
    rw [Entries.put]
    split
    · exact List.forall_mem_cons.mpr ⟨⟨hk, hv⟩, h⟩
    · exact List.forall_mem_cons.mpr ⟨⟨he.1, hv⟩, hes⟩
    · exact List.forall_mem_cons.mpr ⟨he, ih hes⟩

private theorem forall_of_pairs? {items : List Value} {pairs : List (Value × Value)}
    (h : pairs? items = some pairs) (hkeys : ∀ v ∈ items, K v) (hvalues : ∀ v ∈ items, V v) :
    ∀ e ∈ pairs, K e.1 ∧ V e.2 := by
  fun_induction pairs? items generalizing pairs with
  | case1 =>
    cases h
    exact fun _ he => absurd he List.not_mem_nil
  | case2 => cases h
  | case3 k v items ih =>
    obtain ⟨pairs', hpairs', rfl⟩ := Option.map_eq_some_iff.mp h
    simp only [List.forall_mem_cons] at hkeys hvalues
    exact List.forall_mem_cons.mpr ⟨⟨hkeys.1, hvalues.2.1⟩, ih hpairs' hkeys.2.2 hvalues.2.2⟩

/-- The keys and values of a map are among its items. -/
theorem forall_of_mapOf {items : List Value} {entries : List (Value × Value)}
    (h : mapOf items = .ok entries) (hkeys : ∀ v ∈ items, K v) (hvalues : ∀ v ∈ items, V v) :
    ∀ e ∈ entries, K e.1 ∧ V e.2 := by
  rw [mapOf] at h
  split at h
  · cases h
  · next pairs hpairs =>
    have hall := forall_of_pairs? hpairs hkeys hvalues
    have hnil : ∀ e ∈ ([] : List (Value × Value)), K e.1 ∧ V e.2 :=
      fun _ he => absurd he List.not_mem_nil
    clear hpairs
    revert hnil h
    generalize ([] : List (Value × Value)) = es
    induction pairs generalizing es with
    | nil =>
      intro h hes
      cases h
      exact hes
    | cons p pairs ih =>
      obtain ⟨k, v⟩ := p
      intro h hes
      obtain ⟨hp, hpairs⟩ := List.forall_mem_cons.mp hall
      rw [List.foldlM_cons] at h
      obtain ⟨es', hes', h⟩ := bind_eq_ok_iff.mp h
      have hput : es' = Entries.put k v es := by
        dsimp only at hes'
        split at hes'
        · cases hes'
        · cases hes'
          rfl
      exact ih hpairs _ h (hput ▸ forall_put hp.1 hp.2 hes)

end

/-- A key that is put into a namespace is made of the characters of both. -/
theorem scans_of_inNamespace {space : String} (hspace : ∀ c ∈ space.toList, isAtomChar c = true)
    {V : Value → Prop} {entries : List (Value × Value)}
    (h : ∀ e ∈ entries, (∀ n, e.1 = .keyword n → n.Scans) ∧ V e.2) :
    ∀ e ∈ inNamespace space entries, (∀ n, e.1 = .keyword n → n.Scans) ∧ V e.2 := by
  have hslash : isAtomChar '/' = true := rfl
  have hnil : ∀ e ∈ ([] : List (Value × Value)), (∀ n, e.1 = .keyword n → n.Scans) ∧ V e.2 :=
    fun _ he => absurd he List.not_mem_nil
  rw [inNamespace]
  revert hnil
  generalize ([] : List (Value × Value)) = es
  induction entries generalizing es with
  | nil => exact id
  | cons e entries ih =>
    intro hes
    obtain ⟨⟨hkey, hvalue⟩, hentries⟩ := List.forall_mem_cons.mp h
    obtain ⟨k, v⟩ := e
    rw [List.foldl_cons]
    refine ih hentries _ ?_
    dsimp only
    split
    · next base =>
      refine forall_put (K := fun k => ∀ n, k = .keyword n → n.Scans) ?_ hvalue hes
      rintro n ⟨⟩ c hc
      have hname : c ∈ space.toList ++ '/' :: base.toList := by
        simpa [Name.qualified] using hc
      rcases List.mem_append.mp hname with hc | hc
      · exact hspace c hc
      rcases List.mem_cons.mp hc with rfl | hc
      · exact hslash
      · exact hkey _ rfl c hc
    · exact forall_put (K := fun k => ∀ n, k = .keyword n → n.Scans) hkey hvalue hes

private theorem legible_of_tagged {n : Name} {v w : Value} (hv : v.Legible)
    (h : tagged n v = .ok w) : w.Legible := by
  rw [tagged.eq_def] at h
  split at h
  · split at h
    · split at h
      · next ht =>
        cases h
        obtain ⟨hlow, hhigh⟩ := Instant.year_of_read? ht
        exact .instant hlow hhigh
      · cases h
    · cases h
  · split at h
    · split at h
      · split at h
        · cases h
          exact .plain rfl
        · cases h
      · cases h
    · cases h
      exact .plain rfl

private theorem legible_of_underTag {tag v w : Value} (htag : tag.Legible) (hv : v.Legible)
    (h : underTag tag v = .ok w) : w.Legible := by
  rw [underTag.eq_def] at h
  split at h
  · exact legible_of_tagged hv h
  · next space =>
    rw [namespaced.eq_def] at h
    split at h
    · cases h
      cases hv with
      | plain hplain => cases hplain
      | map hkeys hvalues =>
        have hall := scans_of_inNamespace (V := Value.Legible) htag.scans fun e he =>
          ⟨hkeys e he, hvalues e he⟩
        exact .map (fun e he => (hall e he).1) fun e he => (hall e he).2
    · cases h
  · cases h

/-! ### Readers -/

theorem length_lt_of_readOne {cs r : List Char} {v : Value} (h : readOne cs = .ok (v, r)) :
    r.length < cs.length := by
  rw [readOne] at h
  obtain ⟨⟨w, s, hs⟩, -, hp⟩ := map_eq_ok_iff.mp h
  cases hp
  exact hs

private theorem isAtomChar_of_opening {c : Char} (h : Opening.of? c = some .atom) :
    isAtomChar c = true := by
  rw [Opening.of?] at h
  split_ifs at h with _ _ _ _ _ _ hatom
  iterate 6
    · cases h
  · exact hatom

/-- What is read behind the first character of a value, if the readers inside keep to the rule. -/
theorem legible_of_readOpened {c : Char} {rest r : List Char} {v : Value}
    (hmany : ∀ close vs r, readMany close rest = .ok (vs, r) → ∀ v ∈ vs, v.Legible)
    (hsharp : ∀ v r, readSharp rest = .ok (v, r) → v.Legible)
    (h : readOpened c rest = .ok (v, r)) : v.Legible := by
  rw [readOpened] at h
  split at h
  · cases h
  · obtain ⟨⟨vs, r'⟩, hvs, hp⟩ := map_eq_ok_iff.mp h
    cases hp
    exact .list (hmany _ _ _ hvs)
  · obtain ⟨⟨vs, r'⟩, hvs, hp⟩ := map_eq_ok_iff.mp h
    cases hp
    exact .vector (hmany _ _ _ hvs)
  · obtain ⟨⟨vs, r'⟩, hvs, h⟩ := bind_eq_ok_iff.mp h
    obtain ⟨entries, hentries, hp⟩ := map_eq_ok_iff.mp h
    cases hp
    have hlegible := hmany _ _ _ hvs
    have hall := forall_of_mapOf (K := fun k => ∀ n, k = .keyword n → n.Scans) hentries
      (fun v hv n hn => (hn ▸ hlegible v hv).scans) hlegible
    exact .map (fun e he => (hall e he).1) fun e he => (hall e he).2
  · obtain ⟨p, -, hp⟩ := map_eq_ok_iff.mp h
    cases hp
    exact .plain rfl
  · obtain ⟨p, -, hp⟩ := map_eq_ok_iff.mp h
    cases hp
    exact .plain rfl
  · exact hsharp v r h
  · next hopen =>
    obtain ⟨w, hw, hp⟩ := map_eq_ok_iff.mp h
    cases hp
    refine legible_of_readAtom (fun d hd => ?_) hw
    rcases List.mem_cons.mp hd with rfl | hd
    · exact isAtomChar_of_opening hopen
    · exact isAtomChar_of_mem_scanAtom hd

/-- What is read behind `#` is made of single values of the text, or is a set. -/
theorem legible_of_readSharp {cs r : List Char} {v : Value}
    (hone : ∀ cs' : List Char, cs'.length ≤ cs.length →
      ∀ v r, readOne cs' = .ok (v, r) → v.Legible)
    (h : readSharp cs = .ok (v, r)) : v.Legible := by
  have hcomment := length_dropComment_le cs
  cases hdrop : dropComment cs with
  | nil =>
    rw [readSharp_of_nil hdrop] at h
    cases h
  | cons c rest =>
    rw [hdrop, List.length_cons] at hcomment
    rw [readSharp_of_cons hdrop] at h
    split at h
    · obtain ⟨p, hp, h⟩ := bind_eq_ok_iff.mp h
      have hlt := length_lt_of_readOne hp
      exact hone p.2 (by omega) v r h
    split at h
    · obtain ⟨p, -, h⟩ := bind_eq_ok_iff.mp h
      obtain ⟨vs, -, hp⟩ := map_eq_ok_iff.mp h
      cases hp
      exact .plain rfl
    · obtain ⟨p, hp, h⟩ := bind_eq_ok_iff.mp h
      have hlt := length_lt_of_readOne hp
      rw [List.length_cons] at hlt
      split at h
      · obtain ⟨q, hq, h⟩ := bind_eq_ok_iff.mp h
        obtain ⟨w, hw, heq⟩ := map_eq_ok_iff.mp h
        cases heq
        exact legible_of_underTag (hone (c :: rest) hcomment _ _ hp)
          (hone p.2 (by omega) _ _ hq) hw
      · cases h

/-- Items are a single value of the text, and the items of a shorter one. -/
theorem legible_of_readMany {close : Char} {cs r : List Char} {vs : List Value}
    (hone : ∀ cs' : List Char, cs'.length ≤ cs.length →
      ∀ v r, readOne cs' = .ok (v, r) → v.Legible)
    (hmany : ∀ cs' : List Char, cs'.length < cs.length →
      ∀ vs r, readMany close cs' = .ok (vs, r) → ∀ v ∈ vs, v.Legible)
    (h : readMany close cs = .ok (vs, r)) : ∀ v ∈ vs, v.Legible := by
  have hgap := length_dropGap_le cs
  cases hdrop : dropGap cs with
  | nil =>
    rw [readMany_of_nil hdrop] at h
    cases h
  | cons c rest =>
    rw [hdrop, List.length_cons] at hgap
    rw [readMany_of_cons hdrop] at h
    split at h
    · cases h
      exact fun _ hv => absurd hv List.not_mem_nil
    · obtain ⟨p, hp, h⟩ := bind_eq_ok_iff.mp h
      obtain ⟨q, hq, heq⟩ := map_eq_ok_iff.mp h
      cases heq
      have hlt := length_lt_of_readOne hp
      rw [List.length_cons] at hlt
      exact List.forall_mem_cons.mpr ⟨hone (c :: rest) hgap _ _ hp, hmany p.2 (by omega) _ _ hq⟩

/-- By induction on the length of the text: every reader calls the others on what is left behind the
first character, or the one for a single value on the same text. -/
theorem legible_of_readers (cs : List Char) :
    (∀ v r, readOne cs = .ok (v, r) → v.Legible) ∧
      (∀ v r, readSharp cs = .ok (v, r) → v.Legible) ∧
      ∀ close vs r, readMany close cs = .ok (vs, r) → ∀ v ∈ vs, v.Legible := by
  induction hlen : cs.length using Nat.strongRecOn generalizing cs with
  | ind n ih =>
    subst hlen
    have hone : ∀ cs' : List Char, cs'.length ≤ cs.length →
        ∀ v r, readOne cs' = .ok (v, r) → v.Legible := by
      intro cs' hle v r h
      have hblanks := length_dropBlanks_le cs'
      cases hdrop : dropBlanks cs' with
      | nil =>
        rw [readOne_of_nil hdrop] at h
        cases h
      | cons c rest =>
        rw [hdrop, List.length_cons] at hblanks
        obtain ⟨-, hsharp, hmany⟩ := ih rest.length (by omega) rest rfl
        rw [readOne_of_cons hdrop] at h
        exact legible_of_readOpened hmany hsharp h
    refine ⟨hone cs (Nat.le_refl _), fun _ _ => legible_of_readSharp hone, fun close _ _ => ?_⟩
    exact legible_of_readMany hone fun cs' hlt => (ih cs'.length hlt cs' rfl).2.2 close

/-- What was read is such a value. -/
theorem legible_of_read {text : String} {v : Value} (h : Value.read text = .ok v) : v.Legible := by
  rw [Value.read] at h
  obtain ⟨p, hp, rfl⟩ := map_eq_ok_iff.mp h
  have hone : readOne text.toList = .ok (p.1, p.2.1) := by
    rw [readOne, hp]
    rfl
  exact (legible_of_readers text.toList).1 _ _ hone

end Edn

end FlatTree
