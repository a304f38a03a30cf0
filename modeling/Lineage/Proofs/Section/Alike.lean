import Lineage.Proofs.Reference.Resolved
import Lineage.Proofs.Section.Keys
/-!
# Deriving again, in another order

Properties are derived again one after another, and an expression may read what was derived before
it. So the values depend on the order, but only through the pairs of keys of which one is read for
the other (`rederiveAll_alike`).
-/
namespace Lineage

open Reference

/-- Properties that heirs take and derive alike. -/
structure Property.Alike (q p : Property) : Prop where
  value : q.value.Alike p.value
  derivation : q.derivation = p.derivation
  inherited : q.inherited = p.inherited
  modified : q.modified = p.modified

theorem Property.Alike.isDifference {q p : Property} (h : q.Alike p) :
    q.isDifference = p.isDifference := by
  unfold Property.isDifference
  rw [h.inherited, h.modified]

/-- A name is replaced alike in values that are alike. -/
theorem Value.Alike.renamed {v w : Value} (h : w.Alike v) (name name' : Text) :
    (w.renamed name name').Alike (v.renamed name name') := by
  have hkind := h.kind
  cases v with
  | text a =>
    cases w with
    | text b =>
      obtain rfl : b = a := h.literal
      exact ⟨beq_self_eq_true (b.replaceAll name name'), rfl, rfl⟩
    | bool b => cases hkind
    | number x => cases hkind
  | bool a =>
    cases w with
    | bool b => exact h
    | text b => cases hkind
    | number x => cases hkind
  | number x =>
    cases w with
    | number y => exact h
    | text b => cases hkind
    | bool b => cases hkind

/-- A section named `owner` reads its property with the key for the expression. -/
def Reference.Reads (owner raw key : Text) : Prop :=
  ∃ token ∈ tokens raw, token ≠ thisName ∧ ownKey? owner token = some key

/-- Where `L` finds a section that the expression names, other than `owner`, there `M` finds one
with values that are alike. -/
def Reference.Finds (owner raw : Text) (M L : Lookup) : Prop :=
  ∀ x ∈ namesFrom raw, x ≠ owner → ∀ o, L x = some o → ∃ o', M x = some o' ∧ o'.SameValues o

/-- An expression is resolved alike where the properties that it reads are the same. -/
theorem Reference.resolve_congr {s t : Section} {L : Lookup} {raw : Text} (a : Note)
    (hn : t.name = s.name) (h : ∀ key, Reads s.name raw key → t.value? key = s.value? key) :
    resolve raw a t L = resolve raw a s L := by
  refine resolveFrom_congr hn fun token hm ht => ?_
  rw [literalOf, literalOf, valueOf_congr hn fun key hkey => h key ⟨token, hm, ht, hkey⟩]

namespace Section

/-- Sections whose properties heirs take and derive alike, but for the order. -/
structure Alike (t s : Section) : Prop where
  name : t.name = s.name
  get? : ∀ key, Option.Rel Property.Alike (t.get? key) (s.get? key)

/-- The property with the key was derived by the expression. -/
def Derives (s : Section) (key raw : Text) : Prop :=
  ∃ p, s.get? key = some p ∧ p.derivation = some (.expression raw)

variable {s s' t : Section} {L M : Lookup} {p q : Property} {parent key : Text}

theorem rel_value? (h : Option.Rel Property.Alike (t.get? key) (s.get? key)) :
    Option.Rel Value.Alike (t.value? key) (s.value? key) :=
  rel_map (fun _ _ ha => ha.value) h

/-! ## One property -/

theorem valueOfExpression_alike {raw : Text} {a b : Note} {v : Value}
    (h : s.valueOfExpression raw a L = .ok v) (hn : t.name = s.name)
    (hown : ∀ j, Reads s.name raw j → Option.Rel Value.Alike (t.value? j) (s.value? j))
    (hfinds : Finds s.name raw M L) : t.valueOfExpression raw b M = .ok v := by
  obtain ⟨r, x, hr, hx, rfl⟩ := valueOfExpression_ok_iff.1 h
  obtain ⟨r', hr', ht⟩ := @resolve_alike raw s t L M r a b hr hn
    (fun token hm hthis j hj => hown j ⟨token, hm, hthis, hj⟩) hfinds
  exact valueOfExpression_ok_iff.2 ⟨r', x, hr', ht ▸ hx, rfl⟩

theorem readable_of_valueOfExpression {raw : Text} {a : Note} {v : Value}
    (h : s.valueOfExpression raw a L = .ok v) : v.Readable := by
  obtain ⟨-, x, -, -, rfl⟩ := valueOfExpression_ok_iff.1 h
  exact Value.readable_infer x

/-- A property has alike values in heirs where what its expression reads is alike. -/
theorem copyValue_alike {v : Value} (h : s.copyValue parent L p = .ok v) (hn : t.name = s.name)
    (ha : q.Alike p)
    (hown : ∀ raw, p.derivation = some (.expression raw) → ∀ j, Reads s.name raw j →
      Option.Rel Value.Alike (t.value? j) (s.value? j))
    (hfinds : ∀ raw, p.derivation = some (.expression raw) → Finds s.name raw M L) :
    ∃ w, t.copyValue parent M q = .ok w ∧ w.Alike v := by
  unfold copyValue at h ⊢
  rw [ha.derivation]
  cases hd : p.derivation with
  | none =>
    rw [hd] at h
    cases h
    exact ⟨q.value, rfl, ha.value⟩
  | some d =>
    rw [hd] at h
    cases d with
    | selfReference =>
      cases h
      exact ⟨_, rfl, hn ▸ ha.value.renamed parent t.name⟩
    | expression raw =>
      exact ⟨v, valueOfExpression_alike h hn (hown raw hd) (hfinds raw hd),
        Value.alike_refl (readable_of_valueOfExpression h)⟩

theorem get?_rederive_of_ne (h : s.rederive parent key L = .ok s') {j : Text} (hj : j ≠ key) :
    s'.get? j = s.get? j := by
  rcases rederive_ok_iff.1 h with ⟨-, rfl⟩ | ⟨p, v, -, -, -, rfl⟩
  · rfl
  · rw [get?_modify, if_neg hj]

/-- A property is derived alike where what its expression reads is alike. -/
theorem rederive_alike (h : s.rederive parent key L = .ok s') (hn : t.name = s.name)
    (hkey : Option.Rel Property.Alike (t.get? key) (s.get? key))
    (hown : ∀ raw, s.Derives key raw → ∀ j, Reads s.name raw j →
      Option.Rel Value.Alike (t.value? j) (s.value? j))
    (hfinds : ∀ raw, s.Derives key raw → Finds s.name raw M L) :
    ∃ t', t.rederive parent key M = .ok t' ∧
      Option.Rel Property.Alike (t'.get? key) (s'.get? key) := by
  rcases rederive_ok_iff.1 h with ⟨hkept, rfl⟩ | ⟨p, v, hp, hd, hv, rfl⟩
  · refine ⟨t, rederive_ok_iff.2 (.inl ⟨fun q hq => ?_, rfl⟩), hkey⟩
    rw [hq] at hkey
    obtain ⟨p, hp, ha⟩ := exists_of_some_rel hkey
    rw [ha.isDifference, hkept p hp]
  · rw [hp] at hkey
    obtain ⟨q, hq, ha⟩ := exists_of_rel_some hkey
    obtain ⟨w, hw, hwv⟩ := copyValue_alike hv hn ha (fun raw hr => hown raw ⟨p, hp, hr⟩)
      fun raw hr => hfinds raw ⟨p, hp, hr⟩
    refine ⟨_, rederive_ok_iff.2 (.inr ⟨q, w, hq, ha.isDifference.trans hd, hw, rfl⟩), ?_⟩
    rw [get?_modify, get?_modify, if_pos rfl, if_pos rfl, hq, hp]
    exact .some ⟨hwv, ha.derivation, ha.inherited, ha.modified⟩

/-! ## All properties -/

theorem get?_rederiveAll_of_not_mem {keys : List Text}
    (h : (rederiveAll parent L keys s).toExcept = .ok s') (hk : key ∉ keys) :
    s'.get? key = s.get? key := by
  induction keys generalizing s with
  | nil =>
    cases h
    rfl
  | cons k keys ih =>
    simp only [List.mem_cons, not_or] at hk
    obtain ⟨m, hm, h⟩ := rederiveAll_cons_ok_iff.1 h
    rw [ih h hk.2, get?_rederive_of_ne hm hk.1]

/-- Between `s` and `s'`, where the properties before some key are derived again and the others
are not. -/
structure Stage (before : List Text) (s s' m : Section) : Prop where
  name : m.name = s.name
  done : ∀ j ∈ before, m.get? j = s'.get? j
  rest : ∀ j, j ∉ before → m.get? j = s.get? j

/-- In a run over keys, each key has a stage at which it was derived. -/
theorem exists_stage {before after : List Text}
    (h : (rederiveAll parent L (before ++ key :: after) s).toExcept = .ok s')
    (hn : (before ++ key :: after).Nodup) :
    ∃ m m', Stage before s s' m ∧ m.rederive parent key L = .ok m' ∧
      m'.get? key = s'.get? key := by
  induction before generalizing s with
  | nil =>
    obtain ⟨m', hm, h⟩ := rederiveAll_cons_ok_iff.1 h
    rw [List.nil_append, List.nodup_cons] at hn
    exact ⟨s, m', ⟨rfl, by simp, fun _ _ => rfl⟩, hm, (get?_rederiveAll_of_not_mem h hn.1).symm⟩
  | cons k before ih =>
    rw [List.cons_append, List.nodup_cons] at hn
    obtain ⟨m₁, hm₁, h₁⟩ := rederiveAll_cons_ok_iff.1 h
    obtain ⟨m, m', hst, hm, he⟩ := ih h₁ hn.2
    refine ⟨m, m', ⟨hst.name.trans (sameShape_of_rederive hm₁).name, fun j hj => ?_,
      fun j hj => ?_⟩, hm, he⟩
    · rcases List.mem_cons.1 hj with rfl | hj
      · rw [hst.rest j fun hm => hn.1 (List.mem_append_left _ hm),
          get?_rederiveAll_of_not_mem h₁ hn.1]
      · exact hst.done j hj
    · simp only [List.mem_cons, not_or] at hj
      rw [hst.rest j hj.2, get?_rederive_of_ne hm₁ hj.1]

/-- A stage of another run, in whatever order: what it has derived again is like what `s'` has
there, the rest like what `s` has. -/
structure AlikeStage (derived : List Text) (s s' t : Section) : Prop where
  name : t.name = s.name
  done : ∀ j ∈ derived, Option.Rel Property.Alike (t.get? j) (s'.get? j)
  rest : ∀ j, j ∉ derived → Option.Rel Property.Alike (t.get? j) (s.get? j)

/-- A key is derived alike in both runs if both have derived the same of what is read for it. -/
theorem AlikeStage.step {done before after : List Text} (ht : AlikeStage done s s' t)
    (h : (rederiveAll parent L (before ++ key :: after) s).toExcept = .ok s')
    (hn : (before ++ key :: after).Nodup) (hkd : key ∉ done)
    (hread : ∀ raw, s.Derives key raw → ∀ j, Reads s.name raw j → (j ∈ done ↔ j ∈ before))
    (hfinds : ∀ raw, s.Derives key raw → Finds s.name raw M L) :
    ∃ t', t.rederive parent key M = .ok t' ∧ AlikeStage (done ++ [key]) s s' t' := by
  obtain ⟨m, m', hst, hm, hkm⟩ := exists_stage h hn
  have hkb : key ∉ before := fun hb => by
    rw [List.nodup_append] at hn
    exact hn.2.2 key hb key (by simp) rfl
  have hderives : ∀ raw, m.Derives key raw → s.Derives key raw := fun raw hd => by
    rwa [Derives, hst.rest key hkb] at hd
  have halike : ∀ raw, m.Derives key raw → ∀ j, Reads m.name raw j →
      Option.Rel Property.Alike (t.get? j) (m.get? j) := by
    intro raw hd j hj
    rw [hst.name] at hj
    have hsame := hread raw (hderives raw hd) j hj
    by_cases hjb : j ∈ before
    · rw [hst.done j hjb]
      exact ht.done j (hsame.2 hjb)
    · rw [hst.rest j hjb]
      exact ht.rest j fun hjd => hjb (hsame.1 hjd)
  have hkey : Option.Rel Property.Alike (t.get? key) (m.get? key) := by
    rw [hst.rest key hkb]
    exact ht.rest key hkd
  obtain ⟨t', ht', hrel⟩ := rederive_alike hm (ht.name.trans hst.name.symm) hkey
    (fun raw hd j hj => rel_value? (halike raw hd j hj))
    (fun raw hd => hst.name ▸ hfinds raw (hderives raw hd))
  rw [hkm] at hrel
  refine ⟨t', ht', (sameShape_of_rederive ht').name.trans ht.name, fun j hj => ?_, fun j hj => ?_⟩
  · by_cases hjk : j = key
    · rwa [hjk]
    · rw [get?_rederive_of_ne ht' hjk]
      exact ht.done j (by simpa [hjk] using hj)
  · simp only [List.mem_append, List.mem_singleton, not_or] at hj
    rw [get?_rederive_of_ne ht' hj.2]
    exact ht.rest j hj.1

/-- Sections that are alike stay so where the same keys are derived again, in orders that agree on
what is read. -/
theorem rederiveAll_alike {keys keys' : List Text}
    (h : (rederiveAll parent L keys s).toExcept = .ok s') (hst : t.Alike s) (hn : keys.Nodup)
    (hn' : keys'.Nodup) (hmem : ∀ k, k ∈ keys' ↔ k ∈ keys)
    (hord : ∀ j k raw, s.Derives k raw → Reads s.name raw j → j ∈ keys → k ∈ keys →
      ([j, k].Sublist keys' ↔ [j, k].Sublist keys))
    (hfinds : ∀ k ∈ keys, ∀ raw, s.Derives k raw → Finds s.name raw M L) :
    ∃ t', (rederiveAll parent M keys' t).toExcept = .ok t' ∧ t'.Alike s' := by
  suffices hrun : ∀ todo done tm, keys' = done ++ todo → AlikeStage done s s' tm →
      ∃ t', (rederiveAll parent M todo tm).toExcept = .ok t' ∧ t'.Alike s' from
    hrun keys' [] t rfl ⟨hst.name, by simp, fun j _ => hst.get? j⟩
  intro todo
  induction todo with
  | nil =>
    intro done tm he htm
    refine ⟨tm, rfl, htm.name.trans (sameShape_of_rederiveAll h).name.symm, fun j => ?_⟩
    rw [List.append_nil] at he
    by_cases hj : j ∈ done
    · exact htm.done j hj
    · rw [get?_rederiveAll_of_not_mem h fun hk => hj (he ▸ (hmem j).2 hk)]
      exact htm.rest j hj
  | cons k todo ih =>
    intro done tm he htm
    have hk : k ∈ keys := (hmem k).1 (he ▸ by simp)
    obtain ⟨before, after, rfl⟩ := List.append_of_mem hk
    rw [he] at hn'
    have hkd : k ∉ done := fun hd => by
      rw [List.nodup_append] at hn'
      exact hn'.2.2 k hd k (by simp) rfl
    -- what is read is derived already in both runs, or in none
    have hread : ∀ raw, s.Derives k raw → ∀ j, Reads s.name raw j → (j ∈ done ↔ j ∈ before) := by
      intro raw hd j hj
      have hpair := hord j k raw hd hj
      rw [he, pair_sublist_split hn, pair_sublist_split hn'] at hpair
      constructor
      · intro hjd
        exact (hpair ((hmem j).1 (he ▸ List.mem_append_left _ hjd)) hk).1 hjd
      · intro hjb
        exact (hpair (List.mem_append_left _ hjb) hk).2 hjb
    obtain ⟨tm', htm', hstage⟩ := htm.step h hn hkd hread (hfinds k hk)
    obtain ⟨t', ht', ha⟩ := ih (done ++ [k]) tm' (by rw [he]; simp) hstage
    exact ⟨t', by simpa only [rederiveAll, htm'] using ht', ha⟩

end Section

end Lineage
