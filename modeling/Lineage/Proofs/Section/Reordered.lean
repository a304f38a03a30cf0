import Lineage.Proofs.Section.Merging
/-!
# Parents in another order

Derivations of two keys may be exchanged unless one of them reads the other (`rederive_swap`). So an
heir takes the same from parents that hold the same properties in different orders, as long as the
keys that are read to derive others stand in one order (`inheritWith_reordered`). Where they do not,
the values may differ: an expression reads the parent's value of what is derived after it.
-/
namespace Lineage

open Reference

namespace Section

/-- Two sections of one name that hold the same property under each key, in whatever order. -/
structure Agree (t s : Section) : Prop where
  name : t.name = s.name
  get? : ∀ key, t.get? key = s.get? key

/-- One of the two keys is read to derive the other, or both are one. -/
def Linked (s : Section) (j k : Text) : Prop :=
  j = k ∨ (∃ raw, s.Derives k raw ∧ Reads s.name raw j) ∨
    ∃ raw, s.Derives j raw ∧ Reads s.name raw k

variable {s s' t t' m u parent parent' : Section} {overwrite : Bool} {L : Lookup} {p : Property}
  {name key j k : Text} {keys keys' before after : List Text} {ps qs : List Property}

theorem Agree.refl (s : Section) : Agree s s := ⟨rfl, fun _ => rfl⟩

theorem Agree.trans (h : Agree u t) (h' : Agree t s) : Agree u s :=
  ⟨h.name.trans h'.name, fun key => (h.get? key).trans (h'.get? key)⟩

theorem Linked.symm (h : s.Linked j k) : s.Linked k j := by
  rcases h with rfl | h | h
  · exact .inl rfl
  · exact .inr (.inr h)
  · exact .inr (.inl h)

theorem Agree.linked (h : Agree t s) (hl : t.Linked j k) : s.Linked j k := by
  simpa only [Linked, Derives, h.name, h.get?] using hl

theorem SameShape.linked_iff (h : SameShape s m) : m.Linked j k ↔ s.Linked j k := by
  simp only [Linked, h.derives_iff, h.name]

/-! ## Exchanging derivations -/

/-- What a key is derived to depends on its property and on those that are read for it. -/
theorem rederive_congr (h : s.rederive name key L = .ok s') (hn : t.name = s.name)
    (hkey : t.get? key = s.get? key)
    (hreads : ∀ raw, s.Derives key raw → ∀ j, Reads s.name raw j → t.get? j = s.get? j) :
    ∃ t', t.rederive name key L = .ok t' ∧ t'.get? key = s'.get? key := by
  rcases rederive_ok_iff.1 h with ⟨hkept, rfl⟩ | ⟨p, v, hs, hcopy, hv, rfl⟩
  · exact ⟨t, rederive_ok_iff.2 (.inl ⟨hkey ▸ hkept, rfl⟩), hkey⟩
  · have hv' : t.copyValue name L p = .ok v := by
      rw [← hv]
      refine copyValue_congr hn fun raw hd => ?_
      have hsame : ∀ j, Reads s.name raw j → t.value? j = s.value? j := fun j hj => by
        rw [value?, value?, hreads raw ⟨p, hs, hd⟩ j hj]
      rw [valueOfExpression, valueOfExpression, resolve_congr p.note hn hsame]
    refine ⟨t.modify key (·.setDerived v), ?_, ?_⟩
    · exact rederive_ok_iff.2 (.inr ⟨p, v, hkey ▸ hs, hcopy, hv', rfl⟩)
    · rw [get?_modify, get?_modify, hkey]

theorem Agree.rederive (h : s.rederive name key L = .ok s') (ha : Agree t s) :
    ∃ t', t.rederive name key L = .ok t' ∧ Agree t' s' := by
  obtain ⟨t', ht, hkey⟩ := rederive_congr h ha.name (ha.get? key) fun _ _ j _ => ha.get? j
  refine ⟨t', ht, ?_, fun j => ?_⟩
  · rw [(sameShape_of_rederive ht).name, (sameShape_of_rederive h).name, ha.name]
  · by_cases hj : j = key
    · rw [hj, hkey]
    · rw [get?_rederive_of_ne ht hj, get?_rederive_of_ne h hj, ha.get?]

theorem Agree.rederiveAll (h : (rederiveAll name L keys s).toExcept = .ok s') (ha : Agree t s) :
    ∃ t', (Section.rederiveAll name L keys t).toExcept = .ok t' ∧ Agree t' s' := by
  induction keys generalizing s t with
  | nil =>
    cases h
    exact ⟨t, rfl, ha⟩
  | cons key keys ih =>
    obtain ⟨m, hm, h⟩ := rederiveAll_cons_ok_iff.1 h
    obtain ⟨m', hm', ha'⟩ := ha.rederive hm
    obtain ⟨t', ht', ha''⟩ := ih h ha'
    exact ⟨t', rederiveAll_cons_ok_iff.2 ⟨m', hm', ht'⟩, ha''⟩

/-- Two keys may be derived in either order if neither is read for the other. -/
theorem rederive_swap (hl : ¬ s.Linked j k) (hj : s.rederive name j L = .ok m)
    (hk : m.rederive name k L = .ok s') : ∃ m' t, s.rederive name k L = .ok m' ∧
      m'.rederive name j L = .ok t ∧ Agree t s' := by
  have hne : k ≠ j := fun h => hl (.inl h.symm)
  have hm := sameShape_of_rederive hj
  obtain ⟨m', hk', hkey⟩ := rederive_congr (t := s) hk hm.name.symm
    (get?_rederive_of_ne hj hne).symm fun raw hd i hi =>
      (get?_rederive_of_ne hj fun h =>
        hl (.inr (.inl ⟨raw, hm.derives_iff.1 hd, hm.name ▸ h ▸ hi⟩))).symm
  have hm' := sameShape_of_rederive hk'
  obtain ⟨t, hj', hkey'⟩ := rederive_congr (t := m') hj hm'.name (get?_rederive_of_ne hk' hne.symm)
    fun raw hd i hi => get?_rederive_of_ne hk' fun h => hl (.inr (.inr ⟨raw, hd, h ▸ hi⟩))
  refine ⟨m', t, hk', hj', ?_, fun i => ?_⟩
  · rw [(sameShape_of_rederive hj').name, hm'.name, (sameShape_of_rederive hk).name, hm.name]
  · by_cases hij : i = j
    · rw [hij, hkey', get?_rederive_of_ne hk hne.symm]
    · by_cases hik : i = k
      · rw [hik, get?_rederive_of_ne hj' hne, hkey]
      · rw [get?_rederive_of_ne hj' hij, get?_rederive_of_ne hk' hik, get?_rederive_of_ne hk hik,
          get?_rederive_of_ne hj hij]

/-- A key may be derived after others that are not linked to it, instead of before them. -/
theorem rederiveAll_later (hl : ∀ j ∈ before, ¬ s.Linked k j)
    (h : (rederiveAll name L (k :: (before ++ after)) s).toExcept = .ok s') :
    ∃ t, (rederiveAll name L (before ++ k :: after) s).toExcept = .ok t ∧ Agree t s' := by
  induction before generalizing s s' with
  | nil => exact ⟨s', h, .refl s'⟩
  | cons j before ih =>
    obtain ⟨m, hm, h⟩ := rederiveAll_cons_ok_iff.1 h
    obtain ⟨m₁, hm₁, h⟩ := rederiveAll_cons_ok_iff.1 h
    obtain ⟨u, v, hu, hv, ha⟩ := rederive_swap (hl j List.mem_cons_self) hm hm₁
    obtain ⟨w, hw, haw⟩ := ha.rederiveAll h
    have hlu : ∀ i ∈ before, ¬ u.Linked k i := fun i hi hlink =>
      hl i (List.mem_cons_of_mem j hi) ((sameShape_of_rederive hu).linked_iff.1 hlink)
    obtain ⟨t, ht, hat⟩ := ih hlu (rederiveAll_cons_ok_iff.2 ⟨v, hv, hw⟩)
    exact ⟨t, rederiveAll_cons_ok_iff.2 ⟨u, hu, ht⟩, hat.trans haw⟩

/-! ## Orders of keys -/

/-- The places of two keys in a list. -/
def places (j k : Text) (l : List Text) : List Text := l.filter fun x => x = j ∨ x = k

theorem mem_places {x : Text} {l : List Text} : x ∈ places j k l ↔ x ∈ l ∧ (x = j ∨ x = k) := by
  rw [places, List.mem_filter, decide_eq_true_eq]

theorem places_symm (j k : Text) (l : List Text) : places j k l = places k j l := by
  simp only [places, or_comm]

theorem places_of_not_mem (h : k ∉ keys) : places j k keys = places j j keys := by
  refine List.filter_congr fun x hx => ?_
  have hne : x ≠ k := fun he => h (he ▸ hx)
  simp only [hne, or_false, or_self]

/-- Where linked keys have the same places in both lists, no key before the first place of `k` in
one is linked to it if `k` comes first in the other. -/
theorem not_linked_of_places (hk : k ∉ before) (hj : j ∈ before)
    (hplaces : s.Linked k j → places k j (before ++ k :: after) = places k j (k :: keys)) :
    ¬ s.Linked k j := by
  intro hl
  have hhead := congrArg List.head? (hplaces hl)
  have hfirst : (places k j (k :: keys)).head? = some k := by
    rw [places, List.filter_cons_of_pos (by simp), List.head?_cons]
  rw [hfirst, places, List.filter_append, ← places, List.head?_append_of_ne_nil] at hhead
  · exact hk (mem_places.1 (List.mem_of_head? hhead)).1
  · exact List.ne_nil_of_mem (mem_places.2 ⟨hj, .inr rfl⟩)

/-- Taking out the first place of a key, before which no linked key stands, leaves linked keys in
the same places. -/
theorem places_of_cons (hk : k ∉ before) (hfree : ∀ x ∈ before, ¬ s.Linked k x) {i : Text}
    (hl : s.Linked i j) (h : places i j (before ++ k :: after) = places i j (k :: keys)) :
    places i j (before ++ after) = places i j keys := by
  unfold places at h ⊢
  rw [List.filter_append] at h ⊢
  by_cases hkij : k = i ∨ k = j
  · have hnil : before.filter (fun x => x = i ∨ x = j) = [] := by
      rw [List.filter_eq_nil_iff]
      intro x hx hxij
      rw [decide_eq_true_eq] at hxij
      have hxk : x ≠ k := fun he => hk (he ▸ hx)
      refine hfree x hx ?_
      rcases hkij with rfl | rfl <;> rcases hxij with rfl | rfl
      · exact absurd rfl hxk
      · exact hl
      · exact hl.symm
      · exact absurd rfl hxk
    rw [hnil, List.filter_cons_of_pos (by simpa using hkij),
      List.filter_cons_of_pos (by simpa using hkij), List.nil_append] at h
    rw [hnil, List.nil_append]
    exact (List.cons.inj h).2
  · rwa [List.filter_cons_of_neg (by simpa using hkij),
      List.filter_cons_of_neg (by simpa using hkij)] at h

/-- Deriving the same keys in two orders in which linked keys have the same places gives sections
that agree. -/
theorem rederiveAll_reordered (h : (rederiveAll name L keys s).toExcept = .ok s') (ha : Agree t s)
    (hord : ∀ j k, s.Linked j k → places j k keys' = places j k keys) :
    ∃ t', (rederiveAll name L keys' t).toExcept = .ok t' ∧ Agree t' s' := by
  induction keys generalizing s t keys' with
  | nil =>
    have hnil : keys' = [] := by
      refine List.eq_nil_iff_forall_not_mem.2 fun x hx => ?_
      have hm : x ∈ places x x keys' := mem_places.2 ⟨hx, .inl rfl⟩
      rw [hord x x (.inl rfl)] at hm
      exact List.not_mem_nil hm
    cases h
    exact ⟨t, by rw [hnil]; rfl, ha⟩
  | cons k keys ih =>
    have hk : k ∈ keys' := by
      have hm : k ∈ places k k (k :: keys) := mem_places.2 ⟨List.mem_cons_self, .inl rfl⟩
      rw [← hord k k (.inl rfl)] at hm
      exact (mem_places.1 hm).1
    obtain ⟨before, after, rfl, hkb⟩ := List.eq_append_cons_of_mem hk
    have hfree : ∀ j ∈ before, ¬ s.Linked k j := fun j hj =>
      not_linked_of_places hkb hj (hord k j)
    obtain ⟨m, hm, h⟩ := rederiveAll_cons_ok_iff.1 h
    obtain ⟨m', hm', ham⟩ := ha.rederive hm
    have hrest : ∀ i j, m.Linked i j → places i j (before ++ after) = places i j keys := by
      intro i j hl
      rw [(sameShape_of_rederive hm).linked_iff] at hl
      exact places_of_cons hkb hfree hl (hord i j hl)
    obtain ⟨u, hu, hau⟩ := ih h ham hrest
    obtain ⟨t', ht', hat⟩ := rederiveAll_later (fun j hj hl => hfree j hj (ha.linked hl))
      (rederiveAll_cons_ok_iff.2 ⟨m', hm', hu⟩)
    exact ⟨t', ht', hat.trans hau⟩

/-! ## Merging -/

/-- The properties under the two keys stand in one order in both sections. -/
def SameOrder (t s : Section) (j k : Text) : Prop :=
  t.properties.filter (fun p => p.key = j ∨ p.key = k) =
    s.properties.filter (fun p => p.key = j ∨ p.key = k)

/-- An heir named `owner` reads its copy under `j`, which it derives, to derive its copy under `k`;
or both keys are one. -/
def Tied (owner : Text) (s : Section) (j k : Text) : Prop :=
  j = k ∨ ∃ p ∈ s.properties, ∃ q ∈ s.properties, p.key = j ∧ p.derivation.isSome = true ∧
    q.key = k ∧ ∃ raw, q.derivation = some (.expression raw) ∧ Reads owner raw j

/-- Of the declarations of a key the last one is kept. -/
theorem find?_keepLast (ps : List Property) (key : Text) :
    (keepLast Property.key ps).find? (·.key == key) = (ps.filter (·.key == key)).getLast? := by
  induction ps with
  | nil => rfl
  | cons p ps ih =>
    rw [keepLast, any_key_eq, List.filter_cons]
    by_cases hp : p.key ∈ ps.map Property.key
    · rw [decide_eq_true hp, if_pos rfl, ih]
      split
      · next hk =>
        -- the key comes again
        have hne : ps.filter (·.key == key) ≠ [] := by
          obtain ⟨q, hq, he⟩ := List.mem_map.1 hp
          exact List.ne_nil_of_mem (List.mem_filter.2 ⟨hq, he ▸ hk⟩)
        rw [List.getLast?_cons_of_ne_nil hne]
      · rfl
    · rw [decide_eq_false hp, if_neg Bool.false_ne_true, List.find?_cons]
      split
      · next hk =>
        have hnil : ps.filter (·.key == key) = [] := by
          rw [List.filter_eq_nil_iff]
          intro q hq he
          rw [beq_iff_eq] at hk he
          exact hp (hk ▸ he ▸ List.mem_map_of_mem hq)
        rw [hk, if_pos rfl, hnil]
        rfl
      · next hk => rw [hk, if_neg Bool.false_ne_true, ih]

theorem get?_of_validate (h : s.validate overwrite = .ok m) (key : Text) :
    m.get? key = (s.properties.filter (·.key == key)).getLast? := by
  rw [validate_ok h]
  exact find?_keepLast s.properties key

theorem filter_appendCopies (s parent : Section) (key : Text) :
    (s.appendCopies parent).properties.filter (·.key == key) = s.properties.filter (·.key == key) ++
      (parent.properties.filter (·.key == key)).map (·.inheritedBy s.name) := by
  rw [appendCopies, List.filter_append, List.filter_map]
  rfl

theorem SameOrder.filter_key (h : SameOrder parent' parent k k) :
    parent'.properties.filter (·.key == k) = parent.properties.filter (·.key == k) := by
  unfold SameOrder at h
  simpa only [or_self, beq_eq_decide] using h

theorem mem_derivedKeys_iff :
    key ∈ s.derivedKeys ↔ ∃ p ∈ s.properties, p.key = key ∧ p.derivation.isSome = true := by
  simp only [derivedKeys, List.mem_map, List.mem_filter]
  constructor
  · rintro ⟨p, ⟨hp, hd⟩, hk⟩
    exact ⟨p, hp, hk, hd⟩
  · rintro ⟨p, hp, hk, hd⟩
    exact ⟨p, ⟨hp, hd⟩, hk⟩

theorem SameOrder.places (h : SameOrder parent' parent j k) :
    places j k parent'.derivedKeys = places j k parent.derivedKeys := by
  have hfilter (s : Section) : Section.places j k s.derivedKeys =
      ((s.properties.filter fun p => p.key = j ∨ p.key = k).filter (·.derivation.isSome)).map
        Property.key := by
    rw [Section.places, derivedKeys, List.filter_map, List.filter_filter, List.filter_filter]
    simp only [Function.comp_def, Bool.and_comm]
  rw [hfilter, hfilter, h]

/-- Of a section that has each key once, the properties under one key stand in any order. -/
theorem sameOrder_self (hperm : parent'.properties.Perm parent.properties)
    (hn : parent.keys.Nodup) (k : Text) : SameOrder parent' parent k k := by
  unfold SameOrder
  have hp := hperm.filter fun p => p.key = k ∨ p.key = k
  have hle : (parent.properties.filter fun p => p.key = k ∨ p.key = k).length ≤ 1 := by
    have hcount := List.nodup_iff_count_le_one.1 hn k
    rw [keys, List.count, List.countP_map, List.countP_eq_length_filter] at hcount
    simpa only [or_self, Function.comp_def, beq_eq_decide] using hcount
  generalize parent.properties.filter (fun p => p.key = k ∨ p.key = k) = l at hp hle
  rcases l with _ | ⟨p, _ | ⟨q, l⟩⟩
  · exact hp.eq_nil
  · exact List.perm_singleton.1 hp
  · simp at hle

/-- Under a key of the parent, the merged section holds a copy of one of the parent's properties. -/
theorem exists_of_derives {raw : Text} (hm : (s.appendCopies parent).validate overwrite = .ok m)
    (hk : k ∈ parent.keys) (hd : m.Derives k raw) :
    ∃ q ∈ parent.properties, q.key = k ∧ q.derivation = some (.expression raw) := by
  obtain ⟨c, hc, hderivation⟩ := hd
  obtain ⟨q, hq, hqk⟩ := List.mem_map.1 hk
  have hne : (parent.properties.filter (·.key == k)).map (·.inheritedBy s.name) ≠ [] :=
    List.ne_nil_of_mem (List.mem_map_of_mem (List.mem_filter.2 ⟨hq, beq_iff_eq.2 hqk⟩))
  rw [get?_of_validate hm, filter_appendCopies, List.getLast?_append_of_ne_nil _ hne] at hc
  obtain ⟨p, hp, rfl⟩ := List.mem_map.1 (List.mem_of_getLast? hc)
  rw [List.mem_filter, beq_iff_eq] at hp
  exact ⟨p, hp.1, hp.2, hderivation⟩

/-- Linked keys are derived in the same order from both parents. -/
theorem places_derivedKeys (hm : (s.appendCopies parent).validate overwrite = .ok m)
    (hord : ∀ j k, parent.Tied s.name j k → SameOrder parent' parent j k) (hl : m.Linked j k) :
    places j k parent'.derivedKeys = places j k parent.derivedKeys := by
  have hname : m.name = s.name := by rw [validate_ok hm]; rfl
  have hself (i : Text) : places i i parent'.derivedKeys = places i i parent.derivedKeys :=
    (hord i i (.inl rfl)).places
  have hmem (i : Text) : i ∉ parent.derivedKeys → i ∉ parent'.derivedKeys := by
    intro hi hi'
    have hp : i ∈ places i i parent'.derivedKeys := mem_places.2 ⟨hi', .inl rfl⟩
    rw [hself] at hp
    exact hi (mem_places.1 hp).1
  have hread (j k raw : Text) (hd : m.Derives k raw) (hr : Reads m.name raw j) :
      places j k parent'.derivedKeys = places j k parent.derivedKeys := by
    by_cases hk : k ∈ parent.derivedKeys
    · by_cases hj : j ∈ parent.derivedKeys
      · obtain ⟨p, hp, hpj, hpd⟩ := mem_derivedKeys_iff.1 hj
        obtain ⟨p', hp', hpk, -⟩ := mem_derivedKeys_iff.1 hk
        obtain ⟨q, hq, hqk, hqd⟩ := exists_of_derives hm (hpk ▸ List.mem_map_of_mem hp') hd
        exact (hord j k (.inr ⟨p, hp, q, hq, hpj, hpd, hqk, raw, hqd, hname ▸ hr⟩)).places
      · rw [places_symm, places_of_not_mem (hmem j hj), places_symm j, places_of_not_mem hj, hself]
    · rw [places_of_not_mem (hmem k hk), places_of_not_mem hk, hself]
  rcases hl with rfl | ⟨raw, hd, hr⟩ | ⟨raw, hd, hr⟩
  · exact hself j
  · exact hread j k raw hd hr
  · rw [places_symm, places_symm j]
    exact hread k j raw hd hr

theorem validate_of_perm (hperm : parent'.properties.Perm parent.properties)
    (hm : (s.appendCopies parent).validate overwrite = .ok m) :
    ∃ m', (s.appendCopies parent').validate overwrite = .ok m' := by
  have hkeys : (s.appendCopies parent').keys.Perm (s.appendCopies parent).keys :=
    ((hperm.map _).append_left s.properties).map Property.key
  obtain ⟨hmay, -⟩ := validate_ok_iff.1 hm
  rw [← hkeys.nodup_iff] at hmay
  exact ⟨_, validate_ok_iff.2 ⟨hmay, rfl⟩⟩

/-- An heir takes the same from two parents of one name that hold the same properties in different
orders, if the properties under one key stand in one order, and so do those under two derived keys
of which the heir reads one to derive the other. -/
theorem inheritWith_reordered (hname : parent'.name = parent.name)
    (hperm : parent'.properties.Perm parent.properties)
    (hord : ∀ j k, parent.Tied s.name j k → SameOrder parent' parent j k)
    (h : (s.inheritWith parent overwrite L).toExcept = .ok s') :
    ∃ t', (s.inheritWith parent' overwrite L).toExcept = .ok t' ∧
      ∀ key, t'.get? key = s'.get? key := by
  obtain ⟨m, hm, hrun⟩ := inheritWith_ok_iff.1 h
  obtain ⟨m', hm'⟩ := validate_of_perm hperm hm
  have hagree : Agree m' m := by
    refine ⟨by rw [validate_ok hm', validate_ok hm]; rfl, fun key => ?_⟩
    rw [get?_of_validate hm', get?_of_validate hm, filter_appendCopies, filter_appendCopies,
      (hord key key (.inl rfl)).filter_key]
  obtain ⟨t', ht', ha⟩ := rederiveAll_reordered hrun hagree fun j k => places_derivedKeys hm hord
  rw [← hname] at ht'
  exact ⟨t', inheritWith_ok_iff.2 ⟨m', hm', ht'⟩, ha.get?⟩

/-- The properties of `titled`, the last one first. -/
def turned : Section :=
  { titled with properties := titled.properties.drop 2 ++ titled.properties.take 2 }

theorem perm_turned : turned.properties.Perm titled.properties :=
  List.perm_append_comm.trans (.of_eq (List.take_append_drop 2 titled.properties))

/-- The title, which is read for the label, still stands before it. -/
theorem sameOrder_turned (j k : Text) (h : titled.Tied ['K'] j k) :
    SameOrder turned titled j k := by
  rcases h with rfl | ⟨p, -, q, hq, rfl, -, rfl, raw, hraw, token, htoken, -, hkey⟩
  · exact sameOrder_self perm_turned (by decide) j
  · have hlabel : q.key = "label".toList ∧ raw = "$title".toList := by
      simp only [titled, List.mem_cons, List.not_mem_nil, or_false] at hq
      rcases hq with rfl | rfl | rfl
      · cases hraw
      · cases hraw
        exact ⟨rfl, rfl⟩
      · cases hraw
    have htokens : tokens "$title".toList = ["title".toList] := by with_unfolding_all rfl
    rw [hlabel.2, htokens, List.mem_singleton] at htoken
    subst htoken
    have hp : p.key = "title".toList := (Option.some.inj hkey).symm
    rw [hp, hlabel.1]
    rfl

/-- The heir has its own name in the title and in the label, from either parent. -/
theorem inheritWith_reordered_turned : turned.properties.Perm titled.properties ∧
    (∀ j k, titled.Tied ['K'] j k → SameOrder turned titled j k) ∧
    (retitled.inheritWith titled true titled.only).state.value? "label".toList =
      some (.text ['K']) ∧
    ∃ t', (retitled.inheritWith turned true titled.only).toExcept = .ok t' ∧
      t'.value? "label".toList = some (.text ['K']) := by
  have h : (retitled.inheritWith titled true titled.only).toExcept =
      .ok (retitled.inheritWith titled true titled.only).state := by
    with_unfolding_all rfl
  have hlabel : (retitled.inheritWith titled true titled.only).state.value? "label".toList =
      some (.text ['K']) := by
    with_unfolding_all rfl
  obtain ⟨t', ht', hget⟩ :=
    @inheritWith_reordered retitled _ titled turned _ _ rfl perm_turned sameOrder_turned h
  refine ⟨perm_turned, sameOrder_turned, hlabel, t', ht', ?_⟩
  rw [value?, hget]
  exact hlabel

/-- Where the label stands before the title, it is read off the title of the parent. -/
example :
    let turned := { titled with properties := titled.properties.reverse }
    (retitled.inheritWith turned true titled.only).state.value? "label".toList =
      some (.text ['U']) := by
  with_unfolding_all rfl

end Section

end Lineage
