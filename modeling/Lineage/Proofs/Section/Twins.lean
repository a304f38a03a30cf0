import Lineage.Proofs.Section.Alike
/-!
# Merging alike parents

Twins are sections that are alike and keep the order in which their heirs derive. An heir of twins
is a twin again (`inheritWith_twins`).
-/
namespace Lineage.Section

open Reference

/-- The property with the key has a derivation. -/
def IsDerived (s : Section) (key : Text) : Prop :=
  (s.get? key).any (·.derivation.isSome) = true

/-- Keys stand in both sections in the same order, if an heir whose name is in `N` reads the one
to derive the other. -/
def Ordered (N : Text → Prop) (t s : Section) : Prop :=
  ∀ n, N n → ∀ j k raw, s.Derives k raw → Reads n raw j → s.IsDerived j →
    ([j, k].Sublist t.keys ↔ [j, k].Sublist s.keys)

/-- Sections from which heirs whose names are in `N` take the same. -/
structure Twins (N : Text → Prop) (t s : Section) : Prop where
  alike : t.Alike s
  ordered : Ordered N t s
  nodup : s.keys.Nodup
  nodup' : t.keys.Nodup

variable {s s' t parent parent' : Section} {L M : Lookup} {N N' : Text → Prop} {key raw : Text}

/-! ## Derived keys -/

theorem IsDerived.mem_keys (h : s.IsDerived key) : key ∈ s.keys := by
  refine Classical.byContradiction fun hk => ?_
  rw [IsDerived, get?_eq_none_iff.2 hk] at h
  cases h

theorem derivedKeys_eq (hn : s.keys.Nodup) :
    s.derivedKeys = s.keys.filter fun k => (s.get? k).any (·.derivation.isSome) := by
  rw [derivedKeys, keys, List.filter_map]
  congr 1
  refine List.filter_congr fun p hp => ?_
  rw [Function.comp_apply, (get?_eq_some_iff hn).2 ⟨hp, rfl⟩, Option.any_some]

theorem mem_derivedKeys (hn : s.keys.Nodup) : key ∈ s.derivedKeys ↔ s.IsDerived key := by
  rw [derivedKeys_eq hn, List.mem_filter]
  exact ⟨fun h => h.2, fun h => ⟨h.mem_keys, h⟩⟩

theorem pair_derivedKeys (hn : s.keys.Nodup) {j k : Text} : [j, k].Sublist s.derivedKeys ↔
    s.IsDerived j ∧ s.IsDerived k ∧ [j, k].Sublist s.keys := by
  rw [derivedKeys_eq hn, pair_sublist_filter]
  rfl

theorem nodup_derivedKeys (hn : s.keys.Nodup) : s.derivedKeys.Nodup := by
  rw [derivedKeys_eq hn]
  exact hn.filter _

theorem Alike.mem_keys_iff (h : t.Alike s) : key ∈ t.keys ↔ key ∈ s.keys := by
  have hsome := isSome_eq_of_rel (h.get? key)
  rw [← not_iff_not, ← get?_eq_none_iff, ← get?_eq_none_iff, ← Option.isNone_iff_eq_none,
    ← Option.isNone_iff_eq_none, ← Option.not_isSome, ← Option.not_isSome, hsome]

theorem Alike.isDerived_iff (h : t.Alike s) : t.IsDerived key ↔ s.IsDerived key := by
  have hrel := h.get? key
  unfold IsDerived
  generalize t.get? key = x at hrel ⊢
  generalize s.get? key = y at hrel ⊢
  cases hrel with
  | some ha => rw [Option.any_some, Option.any_some, ha.derivation]
  | none => rfl

/-! ## Sections of one shape -/

theorem map_unvalued_get? (s : Section) (key : Text) : (s.get? key).map Property.unvalued =
    (s.properties.map Property.unvalued).find? (·.key == key) := by
  rw [List.find?_map]
  rfl

theorem SameShape.map_get? (h : SameShape s s') {α : Type} {f : Property → α}
    (hf : ∀ p, f p = f p.unvalued) (key : Text) :
    (s'.get? key).map f = (s.get? key).map f := by
  have e : f = f ∘ Property.unvalued := funext hf
  rw [e, ← Option.map_map, ← Option.map_map, map_unvalued_get?, map_unvalued_get?, h.properties]

theorem SameShape.derives_iff (h : SameShape s s') : s'.Derives key raw ↔ s.Derives key raw := by
  have := h.map_get? (f := Property.derivation) (fun _ => rfl) key
  have hiff : ∀ s : Section, s.Derives key raw ↔
      (s.get? key).map Property.derivation = some (some (.expression raw)) := fun s => by
    rw [Option.map_eq_some_iff]
    rfl
  rw [hiff, hiff, this]

theorem SameShape.isDerived_iff (h : SameShape s s') : s'.IsDerived key ↔ s.IsDerived key := by
  have := h.map_get? (f := Property.derivation) (fun _ => rfl) key
  have hiff : ∀ s : Section, s.IsDerived key ↔
      ((s.get? key).map Property.derivation).any Option.isSome = true := fun s => by
    rw [Option.any_map]
    rfl
  rw [hiff, hiff, this]

/-! ## Merging -/

theorem get?_merged_of_mem (h : key ∈ parent.keys) :
    (s.merged parent).get? key = (parent.get? key).map (·.inheritedBy s.name) := by
  rw [get?_merged]
  cases hp : parent.get? key with
  | none => exact absurd h (get?_eq_none_iff.1 hp)
  | some p => rfl

theorem get?_merged_of_not_mem (h : key ∉ parent.keys) :
    (s.merged parent).get? key = s.get? key := by
  rw [get?_merged, get?_eq_none_iff.2 h]
  rfl

theorem derives_merged_of_mem (h : key ∈ parent.keys) :
    (s.merged parent).Derives key raw ↔ parent.Derives key raw := by
  rw [Derives, Derives, get?_merged_of_mem h]
  simp [Property.inheritedBy, Property.derivation, Property.attach, Property.markInherited,
    Property.detach]

theorem derives_merged_of_not_mem (h : key ∉ parent.keys) :
    (s.merged parent).Derives key raw ↔ s.Derives key raw := by
  rw [Derives, Derives, get?_merged_of_not_mem h]

theorem isDerived_merged_of_mem (h : key ∈ parent.keys) :
    (s.merged parent).IsDerived key ↔ parent.IsDerived key := by
  rw [IsDerived, IsDerived, get?_merged_of_mem h, Option.any_map]
  rfl

theorem isDerived_merged_of_not_mem (h : key ∉ parent.keys) :
    (s.merged parent).IsDerived key ↔ s.IsDerived key := by
  rw [IsDerived, IsDerived, get?_merged_of_not_mem h]

theorem alike_merged (hst : t.Alike s) (hp : parent'.Alike parent) :
    (t.merged parent').Alike (s.merged parent) := by
  refine ⟨hst.name, fun key => ?_⟩
  have hrel := hp.get? key
  rw [get?_merged, get?_merged]
  generalize parent'.get? key = x at hrel ⊢
  generalize parent.get? key = y at hrel ⊢
  cases hrel with
  | some ha => exact .some ⟨ha.value, ha.derivation, rfl, rfl⟩
  | none => exact hst.get? key

theorem ordered_merged (hst : Twins N t s) (hp : Twins N' parent' parent) (hN : ∀ n, N n → N' n) :
    Ordered N (t.merged parent') (s.merged parent) := by
  intro n hn j k raw hk hj hjd
  rw [keys_merged, keys_merged]
  refine pair_sublist_overlay (fun _ => hst.alike.mem_keys_iff) (fun _ => hp.alike.mem_keys_iff)
    (fun hjp hkp => ?_) fun hjp hkp => ?_
  · exact hst.ordered n hn j k raw ((derives_merged_of_not_mem hkp).1 hk) hj
      ((isDerived_merged_of_not_mem hjp).1 hjd)
  · exact hp.ordered n (hN n hn) j k raw ((derives_merged_of_mem hkp).1 hk) hj
      ((isDerived_merged_of_mem hjp).1 hjd)

/-- The heir of a twin is a twin. -/
theorem inheritWith_twins (h : (s.inheritWith parent true L).toExcept = .ok s')
    (hst : Twins N t s) (hp : Twins N' parent' parent) (hN : ∀ n, N n → N' n) (hs : N' s.name)
    (hfinds : ∀ raw, parent.Holds raw → Finds s.name raw M L) :
    ∃ t', (t.inheritWith parent' true M).toExcept = .ok t' ∧ Twins N t' s' := by
  obtain ⟨m, hm, hrun⟩ := inheritWith_ok_iff.1 h
  rw [validate_appendCopies hst.nodup hp.nodup] at hm
  cases hm
  have hmem : ∀ k, k ∈ parent'.derivedKeys ↔ k ∈ parent.derivedKeys := fun k => by
    rw [mem_derivedKeys hp.nodup, mem_derivedKeys hp.nodup', hp.alike.isDerived_iff]
  have hkeys : ∀ k ∈ parent.derivedKeys, k ∈ parent.keys := fun k hk =>
    ((mem_derivedKeys hp.nodup).1 hk).mem_keys
  have hord : ∀ j k raw, (s.merged parent).Derives k raw → Reads (s.merged parent).name raw j →
      j ∈ parent.derivedKeys → k ∈ parent.derivedKeys →
      ([j, k].Sublist parent'.derivedKeys ↔ [j, k].Sublist parent.derivedKeys) := by
    intro j k raw hk hj hjd hkd
    rw [mem_derivedKeys hp.nodup] at hjd hkd
    have := hp.ordered s.name hs j k raw ((derives_merged_of_mem hkd.mem_keys).1 hk) hj hjd
    rw [pair_derivedKeys hp.nodup, pair_derivedKeys hp.nodup', hp.alike.isDerived_iff,
      hp.alike.isDerived_iff, this]
  have hfinds' : ∀ k ∈ parent.derivedKeys, ∀ raw, (s.merged parent).Derives k raw →
      Finds s.name raw M L := by
    intro k hk raw hd
    obtain ⟨p, hp, he⟩ := (derives_merged_of_mem (hkeys k hk)).1 hd
    exact hfinds raw ⟨p, List.mem_of_find?_eq_some hp, he⟩
  obtain ⟨t', ht', ha⟩ := rederiveAll_alike hrun (alike_merged hst.alike hp.alike)
    (nodup_derivedKeys hp.nodup) (nodup_derivedKeys hp.nodup') hmem hord hfinds'
  have hs' := sameShape_of_rederiveAll hrun
  have hshape := sameShape_of_rederiveAll ht'
  refine ⟨t', ?_, ha, ?_, ?_, ?_⟩
  · simp only [inheritWith, validate_appendCopies hst.nodup' hp.nodup']
    exact hp.alike.name ▸ ht'
  · intro n hn j k raw hk hj hjd
    rw [hs'.keys, hshape.keys]
    exact ordered_merged hst hp hN n hn j k raw (hs'.derives_iff.1 hk) hj (hs'.isDerived_iff.1 hjd)
  · rw [hs'.keys]
    exact nodup_overlay hst.nodup (by rw [map_key_inheritedBy]; exact hp.nodup)
  · rw [hshape.keys]
    exact nodup_overlay hst.nodup' (by rw [map_key_inheritedBy]; exact hp.nodup')

end Lineage.Section
