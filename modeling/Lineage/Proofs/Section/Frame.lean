import Mathlib.Data.List.Nodup
import Lineage.Proofs.Section.Rederived
/-!
# What merging leaves alone

Deriving properties again changes their values and nothing else, and a merge keeps the last copy of
every key. So a merged section holds only expressions that it or its parent held before.
-/
namespace Lineage

/-- A property apart from its value. -/
def Property.unvalued (p : Property) : Property := p.setDerived (.bool false)

@[simp] theorem Property.unvalued_setDerived (p : Property) (v : Value) :
    (p.setDerived v).unvalued = p.unvalued := rfl

namespace Section

/-- Some property of the section was derived by the expression. -/
def Holds (s : Section) (raw : Text) : Prop :=
  ∃ p ∈ s.properties, p.derivation = some (.expression raw)

/-- Two sections that differ in values only. -/
structure SameShape (s s' : Section) : Prop where
  name : s'.name = s.name
  parents : s'.parents = s.parents
  properties : s'.properties.map Property.unvalued = s.properties.map Property.unvalued

theorem SameShape.refl (s : Section) : SameShape s s := ⟨rfl, rfl, rfl⟩

theorem SameShape.trans {s₁ s₂ s₃ : Section} (h : SameShape s₁ s₂) (h' : SameShape s₂ s₃) :
    SameShape s₁ s₃ :=
  ⟨h'.name.trans h.name, h'.parents.trans h.parents, h'.properties.trans h.properties⟩

/-- What is read off properties apart from their values is the same in sections of one shape. -/
theorem SameShape.map_eq {α : Type} {s s' : Section} (h : SameShape s s') {f : Property → α}
    (hf : ∀ p, f p = f p.unvalued) : s'.properties.map f = s.properties.map f := by
  have e : f = f ∘ Property.unvalued := funext hf
  rw [e, ← List.map_map, ← List.map_map, h.properties]

theorem SameShape.holds_iff {s s' : Section} (h : SameShape s s') (raw : Text) :
    s'.Holds raw ↔ s.Holds raw := by
  have := h.map_eq (f := Property.derivation) fun _ => rfl
  simp only [Holds, ← List.mem_map, this]

/-! ## Deriving again -/

theorem sameShape_modify (s : Section) (key : Text) (v : Value) :
    SameShape s (s.modify key (·.setDerived v)) :=
  ⟨rfl, rfl, map_modifyFirst (fun p _ => p.unvalued_setDerived v) s.properties⟩

theorem sameShape_of_rederive {s s' : Section} {parent key : Text} {others : Lookup}
    (h : s.rederive parent key others = .ok s') : SameShape s s' := by
  rcases rederive_ok_iff.1 h with ⟨-, rfl⟩ | ⟨p, v, -, -, -, rfl⟩
  · exact .refl s'
  · exact sameShape_modify s key v

theorem rederiveAll_cons_ok_iff {parent key : Text} {others : Lookup} {keys : List Text}
    {s s' : Section} : (rederiveAll parent others (key :: keys) s).toExcept = .ok s' ↔
      ∃ m, s.rederive parent key others = .ok m ∧
        (rederiveAll parent others keys m).toExcept = .ok s' := by
  rw [rederiveAll]
  cases s.rederive parent key others with
  | error f => exact ⟨nofun, nofun⟩
  | ok m =>
    refine ⟨fun h => ⟨m, rfl, h⟩, ?_⟩
    rintro ⟨_, ⟨⟩, h⟩
    exact h

theorem sameShape_of_rederiveAll {parent : Text} {others : Lookup} {keys : List Text}
    {s s' : Section} (h : (rederiveAll parent others keys s).toExcept = .ok s') :
    SameShape s s' := by
  induction keys generalizing s with
  | nil => cases h; exact .refl s
  | cons key keys ih =>
    obtain ⟨m, hm, h⟩ := rederiveAll_cons_ok_iff.1 h
    exact (sameShape_of_rederive hm).trans (ih h)

/-! ## Merging -/

theorem validate_ok {s s' : Section} {overwrite : Bool} (h : s.validate overwrite = .ok s') :
    s' = { s with properties := keepLast Property.key s.properties } := by
  simp only [validate] at h
  split at h
  · cases h
  · cases h; rfl

theorem inheritWith_ok_iff {s parent s' : Section} {overwrite : Bool} {others : Lookup} :
    (s.inheritWith parent overwrite others).toExcept = .ok s' ↔
      ∃ m, (s.appendCopies parent).validate overwrite = .ok m ∧
        (rederiveAll parent.name others parent.derivedKeys m).toExcept = .ok s' := by
  rw [inheritWith]
  cases (s.appendCopies parent).validate overwrite with
  | error f => exact ⟨nofun, nofun⟩
  | ok m =>
    refine ⟨fun h => ⟨m, rfl, h⟩, ?_⟩
    rintro ⟨_, ⟨⟩, h⟩
    exact h

theorem holds_of_validate {s parent m : Section} {overwrite : Bool} {raw : Text}
    (h : (s.appendCopies parent).validate overwrite = .ok m) (hr : m.Holds raw) :
    s.Holds raw ∨ parent.Holds raw := by
  obtain rfl := validate_ok h
  obtain ⟨p, hp, he⟩ := hr
  replace hp := (keepLast_sublist _ _).subset hp
  simp only [appendCopies, List.mem_append, List.mem_map] at hp
  rcases hp with hp | ⟨q, hq, rfl⟩
  · exact .inl ⟨p, hp, he⟩
  · exact .inr ⟨q, hq, he⟩

theorem name_of_inheritWith {s parent s' : Section} {overwrite : Bool} {others : Lookup}
    (h : (s.inheritWith parent overwrite others).toExcept = .ok s') : s'.name = s.name := by
  obtain ⟨m, hm, h⟩ := inheritWith_ok_iff.1 h
  rw [(sameShape_of_rederiveAll h).name, validate_ok hm]
  rfl

theorem parents_of_inheritWith {s parent s' : Section} {overwrite : Bool} {others : Lookup}
    (h : (s.inheritWith parent overwrite others).toExcept = .ok s') :
    s'.parents = s.parents ++ [parent.name] := by
  obtain ⟨m, hm, h⟩ := inheritWith_ok_iff.1 h
  rw [(sameShape_of_rederiveAll h).parents, validate_ok hm]
  rfl

theorem holds_of_inheritWith {s parent s' : Section} {overwrite : Bool} {others : Lookup}
    {raw : Text} (h : (s.inheritWith parent overwrite others).toExcept = .ok s')
    (hr : s'.Holds raw) : s.Holds raw ∨ parent.Holds raw := by
  obtain ⟨m, hm, h⟩ := inheritWith_ok_iff.1 h
  exact holds_of_validate hm (((sameShape_of_rederiveAll h).holds_iff raw).1 hr)

theorem insert_ok {s s' : Section} {p : Property} {overwrite : Bool}
    (h : s.insert p overwrite = .ok s') :
    s' = { s with properties := s.properties.eraseP (·.key == p.key) ++ [p.attach s.name] } := by
  simp only [insert] at h
  split at h
  · cases h
  · cases h; rfl

end Section

end Lineage
