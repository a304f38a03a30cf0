import Mathlib.Data.List.Nodup
import Lineage.Proofs.Section.Frame
/-!
# Keys of a section

Merging and declaring put properties over others: those with the same keys go, and the new ones
come last (`overlay`). What is found under a key follows from that (`find?_overlay`).
-/
namespace Lineage.Section

/-- Properties without those whose keys come again, with the others behind them. -/
def overlay (ps qs : List Property) : List Property :=
  ps.filter (fun p => ! qs.any (·.key == p.key)) ++ qs

/-- The keys of a section, in the order of storage. -/
def keys (s : Section) : List Text := s.properties.map Property.key

variable {s : Section} {p : Property} {ps qs rs : List Property} {key : Text}

theorem any_key_eq (qs : List Property) (key : Text) :
    (qs.any (·.key == key)) = decide (key ∈ qs.map Property.key) := by
  rw [Bool.eq_iff_iff]
  simp

theorem map_key_overlay (ps qs : List Property) : (overlay ps qs).map Property.key =
    (ps.map Property.key).filter (· ∉ qs.map Property.key) ++ qs.map Property.key := by
  rw [overlay, List.map_append, List.filter_map]
  simp only [any_key_eq, Function.comp_def, decide_not]

theorem nodup_overlay (hp : (ps.map Property.key).Nodup) (hq : (qs.map Property.key).Nodup) :
    ((overlay ps qs).map Property.key).Nodup := by
  rw [map_key_overlay, List.nodup_append]
  refine ⟨hp.filter _, hq, fun a ha b hb => ?_⟩
  rintro rfl
  simpa [hb] using (List.mem_filter.1 ha).2

theorem mem_map_key_overlay {ps qs : List Property} {key : Text} :
    key ∈ (overlay ps qs).map Property.key ↔
      key ∈ ps.map Property.key ∨ key ∈ qs.map Property.key := by
  rw [map_key_overlay, List.mem_append, List.mem_filter]
  by_cases h : key ∈ qs.map Property.key <;> simp [h]

theorem overlay_overlay (ps qs rs : List Property) :
    overlay (overlay ps qs) rs = overlay ps (overlay qs rs) := by
  have hfilter : ps.filter (fun p => (! qs.any (·.key == p.key)) && ! rs.any (·.key == p.key)) =
      ps.filter (fun p => ! (overlay qs rs).any (·.key == p.key)) := by
    refine List.filter_congr fun p _ => ?_
    simp only [any_key_eq, mem_map_key_overlay, Bool.decide_or, Bool.not_or]
  rw [overlay, overlay, overlay, ← hfilter, List.filter_append, List.filter_filter,
    List.append_assoc, ← overlay]
  simp only [Bool.and_comm]

theorem find?_cons_key (p : Property) (ps : List Property) (key : Text) :
    (p :: ps).find? (·.key == key) =
      if p.key = key then some p else ps.find? (·.key == key) := by
  by_cases h : p.key = key <;> simp [h]

theorem overlay_cons (p : Property) (ps qs : List Property) :
    overlay (p :: ps) qs =
      if p.key ∈ qs.map Property.key then overlay ps qs else p :: overlay ps qs := by
  unfold overlay
  rw [List.filter_cons, any_key_eq]
  by_cases h : p.key ∈ qs.map Property.key <;> simp [h]

theorem find?_eq_none_iff {ps : List Property} {key : Text} :
    ps.find? (·.key == key) = none ↔ key ∉ ps.map Property.key := by
  simp

/-- What overrides is found first. -/
theorem find?_overlay (ps qs : List Property) (key : Text) :
    (overlay ps qs).find? (·.key == key) =
      (qs.find? (·.key == key)).or (ps.find? (·.key == key)) := by
  induction ps with
  | nil => simp [overlay]
  | cons p ps ih =>
    rw [overlay_cons, find?_cons_key]
    split
    · next hmem =>
      rw [ih]
      split
      · next hk =>
        -- the key is taken by the properties on top
        cases hq : qs.find? (·.key == key) with
        | none => exact absurd (hk ▸ hmem) (find?_eq_none_iff.1 hq)
        | some q => rfl
      · rfl
    · next hmem =>
      rw [find?_cons_key]
      split
      · next hk =>
        rw [find?_eq_none_iff.2 (hk ▸ hmem), Option.none_or]
      · exact ih

theorem keepLast_of_nodup (h : (ps.map Property.key).Nodup) : keepLast Property.key ps = ps := by
  induction ps with
  | nil => rfl
  | cons p ps ih =>
    rw [List.map_cons, List.nodup_cons] at h
    rw [keepLast, any_key_eq, decide_eq_false h.1, if_neg Bool.false_ne_true, ih h.2]

theorem nodup_keepLast (ps : List Property) :
    ((keepLast Property.key ps).map Property.key).Nodup := by
  induction ps with
  | nil => exact List.nodup_nil
  | cons p ps ih =>
    rw [keepLast]
    split
    · exact ih
    · next hany =>
      rw [List.map_cons, List.nodup_cons]
      refine ⟨fun hm => hany ?_, ih⟩
      rw [any_key_eq, decide_eq_true_iff]
      exact ((keepLast_sublist _ ps).map _).subset hm

theorem mem_map_key_keepLast {ps : List Property} {key : Text} :
    key ∈ (keepLast Property.key ps).map Property.key ↔ key ∈ ps.map Property.key := by
  induction ps with
  | nil => rfl
  | cons p ps ih =>
    rw [keepLast, any_key_eq]
    by_cases hp : p.key ∈ ps.map Property.key
    · -- the last declaration of this key stands further behind
      rw [decide_eq_true hp, if_pos rfl, ih, List.map_cons, List.mem_cons]
      refine ⟨.inr, ?_⟩
      rintro (rfl | hk)
      · exact hp
      · exact hk
    · rw [decide_eq_false hp, if_neg Bool.false_ne_true, List.map_cons, List.map_cons,
        List.mem_cons, List.mem_cons, ih]

theorem keepLast_append (hp : (ps.map Property.key).Nodup) (hq : (qs.map Property.key).Nodup) :
    keepLast Property.key (ps ++ qs) = overlay ps qs := by
  induction ps with
  | nil => exact keepLast_of_nodup hq
  | cons p ps ih =>
    rw [List.map_cons, List.nodup_cons] at hp
    have hany : ((ps ++ qs).any (·.key == p.key)) = qs.any (·.key == p.key) := by
      rw [List.any_append, any_key_eq ps, decide_eq_false hp.1, Bool.false_or]
    rw [List.cons_append, keepLast, hany, ih hp.2, overlay, overlay, List.filter_cons]
    cases qs.any (·.key == p.key) <;> rfl

/-- Where keys are unique, erasing a key and appending is overriding. -/
theorem eraseP_append (h : (ps.map Property.key).Nodup) (p : Property) :
    ps.eraseP (·.key == p.key) ++ [p] = overlay ps [p] := by
  have hfilter : ps.eraseP (·.key == p.key) = ps.filter (fun q => ! [p].any (·.key == q.key)) := by
    induction ps with
    | nil => rfl
    | cons q ps ih =>
      rw [List.map_cons, List.nodup_cons] at h
      by_cases hk : q.key = p.key
      · have hall : ps.filter (fun q => ! [p].any (·.key == q.key)) = ps := by
          rw [List.filter_eq_self]
          intro r hr
          have : p.key ≠ r.key := fun he => h.1 (hk ▸ he ▸ List.mem_map_of_mem hr)
          simp [this]
        rw [List.eraseP_cons_of_pos (by simp [hk]), List.filter_cons_of_neg (by simp [hk]), hall]
      · rw [List.eraseP_cons_of_neg (by simp [hk]), ih h.2,
          List.filter_cons_of_pos (by simp [Ne.symm hk])]
  rw [hfilter, overlay]

/-! ## Lookup -/

theorem get?_eq_none_iff : s.get? key = none ↔ key ∉ s.keys := by
  simp [get?, keys]

theorem mem_keys_iff_isSome : key ∈ s.keys ↔ (s.get? key).isSome := by
  rw [← not_iff_not, ← get?_eq_none_iff, Option.not_isSome_iff_eq_none]

theorem hasKey_iff : s.hasKey key = true ↔ key ∈ s.keys := mem_keys_iff_isSome.symm

theorem find?_key_iff (hn : (ps.map Property.key).Nodup) :
    ps.find? (·.key == key) = some p ↔ p ∈ ps ∧ p.key = key := by
  constructor
  · intro h
    exact ⟨List.mem_of_find?_eq_some h, by simpa using List.find?_some h⟩
  · rintro ⟨hp, rfl⟩
    cases h : ps.find? (·.key == p.key) with
    | none => exact absurd (List.mem_map_of_mem hp) (find?_eq_none_iff.1 h)
    | some q =>
      have hq := List.mem_of_find?_eq_some h
      have hk : q.key = p.key := by simpa using List.find?_some h
      rw [List.inj_on_of_nodup_map hn hq hp hk]

theorem find?_perm (h : ps.Perm qs) (hn : (ps.map Property.key).Nodup) (key : Text) :
    ps.find? (·.key == key) = qs.find? (·.key == key) := by
  refine Option.ext fun p => ?_
  rw [find?_key_iff hn, find?_key_iff ((h.map _).nodup_iff.1 hn), h.mem_iff]

theorem get?_eq_some_iff (hn : s.keys.Nodup) :
    s.get? key = some p ↔ p ∈ s.properties ∧ p.key = key :=
  find?_key_iff hn

theorem find?_modifyFirst {f : Property → Property} (hf : ∀ p, (f p).key = p.key) (k key : Text)
    (ps : List Property) : (modifyFirst Property.key f k ps).find? (·.key == key) =
      if key = k then (ps.find? (·.key == key)).map f else ps.find? (·.key == key) := by
  induction ps with
  | nil => simp [modifyFirst]
  | cons p ps ih =>
    rw [modifyFirst, find?_cons_key]
    by_cases hp : p.key = k
    · rw [if_pos (by simpa using hp), find?_cons_key, hf]
      by_cases hk : key = k
      · rw [if_pos hk, if_pos (hp.trans hk.symm), if_pos (hp.trans hk.symm)]
        rfl
      · rw [if_neg hk, if_neg fun h => hk (h.symm.trans hp), if_neg fun h => hk (h.symm.trans hp)]
    · rw [if_neg (by simpa using hp), find?_cons_key, ih]
      by_cases hk : p.key = key
      · rw [if_pos hk, if_neg (hk ▸ hp), if_pos hk]
      · rw [if_neg hk, if_neg hk]

theorem get?_modify (s : Section) (k key : Text) (v : Value) :
    (s.modify k (·.setDerived v)).get? key =
      if key = k then (s.get? key).map (·.setDerived v) else s.get? key :=
  find?_modifyFirst (f := fun p => p.setDerived v) (fun _ => rfl) k key s.properties

theorem SameShape.keys {s s' : Section} (h : SameShape s s') : s'.keys = s.keys :=
  h.map_eq fun _ => rfl

/-! ## Merging and declaring -/

/-- A section with the copies that it takes from a parent, before any is derived again. -/
def merged (s parent : Section) : Section :=
  { s with
    parents := s.parents ++ [parent.name]
    properties := overlay s.properties (parent.properties.map (·.inheritedBy s.name)) }

variable {parent : Section}

theorem map_key_inheritedBy (ps : List Property) (heir : Text) :
    (ps.map (·.inheritedBy heir)).map Property.key = ps.map Property.key := by
  rw [List.map_map]
  rfl

theorem validate_appendCopies (hs : s.keys.Nodup) (hp : parent.keys.Nodup) :
    (s.appendCopies parent).validate true = .ok (s.merged parent) := by
  have hp' : ((parent.properties.map (·.inheritedBy s.name)).map Property.key).Nodup := by
    rwa [map_key_inheritedBy]
  have := keepLast_append hs hp'
  simp only [validate, appendCopies, merged, this]

theorem keys_merged (s parent : Section) :
    (s.merged parent).keys = s.keys.filter (· ∉ parent.keys) ++ parent.keys := by
  rw [keys, merged, map_key_overlay, map_key_inheritedBy]
  rfl

theorem get?_merged (s parent : Section) (key : Text) : (s.merged parent).get? key =
    ((parent.get? key).map (·.inheritedBy s.name)).or (s.get? key) := by
  unfold get? merged
  rw [find?_overlay, List.find?_map]
  rfl

theorem insert_eq (hs : s.keys.Nodup) (p : Property) :
    s.insert p true = .ok { s with properties := overlay s.properties [p.attach s.name] } := by
  rw [insert, Bool.not_true, Bool.and_false, if_neg Bool.false_ne_true]
  have := eraseP_append hs (p.attach s.name)
  rw [← this]
  rfl

end Lineage.Section
