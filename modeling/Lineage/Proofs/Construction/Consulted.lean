import Lineage.Construction
import Lineage.Proofs.Reference.Resolved
import Lineage.Proofs.Section.Frame
/-!
# Sections that a block consults

Building a block looks for its parents, for the sections that its lines name, and for those that
the expressions of its parents name. A block that was built is built alike by every lookup that
finds these sections as before (`ofBlock_mono`).
-/
namespace Lineage

open Source

namespace Section

/-- In the section named `owner`, the lookup `M` serves the expressions of `s` as `L` does. -/
def Served (owner : Text) (s : Section) (L M : Lookup) : Prop :=
  ∀ raw, s.Holds raw → Lookup.LeOn (fun x => x ≠ owner ∧ x ∈ Reference.namesFrom raw) L M

variable {L M : Lookup} {s s' parent : Section} {overwrite : Bool}

theorem valueOfExpression_mono {raw : Text} {note : Note} {v : Value}
    (h : s.valueOfExpression raw note L = .ok v)
    (hM : Lookup.LeOn (fun x => x ≠ s.name ∧ x ∈ Reference.namesFrom raw) L M) :
    s.valueOfExpression raw note M = .ok v := by
  obtain ⟨r, a, hr, ha, hv⟩ := valueOfExpression_ok_iff.1 h
  exact valueOfExpression_ok_iff.2 ⟨r, a, Reference.resolve_mono hr hM, ha, hv⟩

theorem copyValue_mono {p : Property} {parent : Text} {v : Value} (hp : p ∈ s.properties)
    (h : s.copyValue parent L p = .ok v) (hM : Served s.name s L M) :
    s.copyValue parent M p = .ok v :=
  copyValue_of_ok h rfl fun raw hd hv => valueOfExpression_mono hv (hM raw ⟨p, hp, hd⟩)

theorem rederive_mono {parent key : Text} (h : s.rederive parent key L = .ok s')
    (hM : Served s.name s L M) : s.rederive parent key M = .ok s' :=
  rederive_of_ok h fun _ _ hp hv => copyValue_mono (List.mem_of_find?_eq_some hp) hv hM

/-- Copies that were derived again are derived alike where more sections are found. -/
theorem rederiveAll_mono {parent : Text} {keys : List Text}
    (h : (rederiveAll parent L keys s).toExcept = .ok s') (hM : Served s.name s L M) :
    (rederiveAll parent M keys s).toExcept = .ok s' := by
  induction keys generalizing s with
  | nil => exact h
  | cons key keys ih =>
    obtain ⟨m, hm, h⟩ := rederiveAll_cons_ok_iff.1 h
    have hs := sameShape_of_rederive hm
    simp only [rederiveAll, rederive_mono hm hM]
    refine ih h fun raw hr => ?_
    rw [hs.name]
    exact hM raw ((hs.holds_iff raw).1 hr)

theorem inheritWith_mono (h : (s.inheritWith parent overwrite L).toExcept = .ok s')
    (hs : Served s.name s L M) (hp : Served s.name parent L M) :
    (s.inheritWith parent overwrite M).toExcept = .ok s' := by
  obtain ⟨m, hm, h⟩ := inheritWith_ok_iff.1 h
  have hn : m.name = s.name := by rw [validate_ok hm]; rfl
  simp only [inheritWith, hm]
  refine rederiveAll_mono h fun raw hr => ?_
  rw [hn]
  exact (holds_of_validate hm hr).elim (hs raw) (hp raw)

end Section

namespace Construction

variable {L M : Lookup} {s s' : Section} {overwrite : Bool}

/-! ## Merging parents -/

theorem mergeParents_cons_ok {line : Nat} {p : Text} {ps : List Text}
    (h : mergeParents line L s (p :: ps) = .ok s') :
    ∃ P m, L p = some P ∧ (s.inheritWith P true L).toExcept = .ok m ∧
      mergeParents line L m ps = .ok s' := by
  simp only [mergeParents] at h
  split at h
  · cases h
  · next P hP =>
    split at h
    · cases h
    · next m hm => exact ⟨P, m, hP, hm, h⟩

/-- Parents that were merged are merged alike where more sections are found. -/
theorem mergeParents_mono {line : Nat} {ps : List Text} (h : mergeParents line L s ps = .ok s')
    (hps : Lookup.LeOn (· ∈ ps) L M) (hs : Section.Served s.name s L M)
    (hP : ∀ p ∈ ps, ∀ P, L p = some P → Section.Served s.name P L M) :
    mergeParents line M s ps = .ok s' := by
  induction ps generalizing s with
  | nil => exact h
  | cons p ps ih =>
    obtain ⟨P, m, hL, hm, h⟩ := mergeParents_cons_ok h
    have hserved := hP p (by simp) P hL
    have hn := Section.name_of_inheritWith hm
    simp only [mergeParents, hps p P (by simp) hL, Section.inheritWith_mono hm hs hserved]
    refine ih h (hps.mono fun x hx => by simp [hx]) (fun raw hr => ?_) fun q hq => ?_
    · rw [hn]
      exact (Section.holds_of_inheritWith hm hr).elim (hs raw) (hserved raw)
    · rw [hn]
      exact hP q (by simp [hq])

theorem name_of_mergeParents {line : Nat} {ps : List Text}
    (h : mergeParents line L s ps = .ok s') : s'.name = s.name := by
  induction ps generalizing s with
  | nil => cases h; rfl
  | cons p ps ih =>
    obtain ⟨P, m, -, hm, h⟩ := mergeParents_cons_ok h
    rw [ih h, Section.name_of_inheritWith hm]

/-- An expression that a section holds after a merge was there before, or a parent holds it. -/
theorem holds_of_mergeParents {line : Nat} {ps : List Text} {raw : Text}
    (h : mergeParents line L s ps = .ok s') (hr : s'.Holds raw) :
    s.Holds raw ∨ ∃ p ∈ ps, ∃ P, L p = some P ∧ P.Holds raw := by
  induction ps generalizing s with
  | nil => cases h; exact .inl hr
  | cons p ps ih =>
    obtain ⟨P, m, hP, hm, h⟩ := mergeParents_cons_ok h
    rcases ih h with hr | ⟨q, hq, h⟩
    · rcases Section.holds_of_inheritWith hm hr with hr | hr
      · exact .inl hr
      · exact .inr ⟨p, by simp, P, hP, hr⟩
    · exact .inr ⟨q, by simp [hq], h⟩

/-! ## Declaring lines -/

theorem declareLines_cons_ok {d : Declaration} {ds : List Declaration}
    (h : declareLines overwrite L s (d :: ds) = .ok s') :
    ∃ p m, property d s L = .ok p ∧ s.insert p overwrite = .ok m ∧
      declareLines overwrite L m ds = .ok s' := by
  simp only [declareLines] at h
  split at h
  · cases h
  · next p hp =>
    split at h
    · cases h
    · next m hm => exact ⟨p, m, hp, hm, h⟩

theorem property_mono {d : Declaration} {p : Property} (h : property d s L = .ok p)
    (hM : Lookup.LeOn (fun x => x ≠ s.name ∧ x ∈ Reference.namesFrom d.value) L M) :
    property d s M = .ok p := by
  simp only [property] at h ⊢
  split at h
  · cases h
  · next r hr => rw [Reference.resolve_mono hr hM]; exact h

/-- Lines that were declared are declared alike where more sections are found. -/
theorem declareLines_mono {ds : List Declaration} (h : declareLines overwrite L s ds = .ok s')
    (hM : ∀ d ∈ ds, Lookup.LeOn (fun x => x ≠ s.name ∧ x ∈ Reference.namesFrom d.value) L M) :
    declareLines overwrite M s ds = .ok s' := by
  induction ds generalizing s with
  | nil => exact h
  | cons d ds ih =>
    obtain ⟨p, m, hp, hm, h⟩ := declareLines_cons_ok h
    have hn : m.name = s.name := by rw [Section.insert_ok hm]
    simp only [declareLines, property_mono hp (hM d (by simp)), hm]
    refine ih h fun d' hd => ?_
    rw [hn]
    exact hM d' (by simp [hd])

theorem name_of_declareLines {ds : List Declaration} (h : declareLines overwrite L s ds = .ok s') :
    s'.name = s.name := by
  induction ds generalizing s with
  | nil => cases h; rfl
  | cons d ds ih =>
    obtain ⟨p, m, -, hm, h⟩ := declareLines_cons_ok h
    rw [ih h, Section.insert_ok hm]

/-! ## Building a block -/

/-- The sections that building a block looks for. -/
def Consults (b : Block) (built : Lookup) (x : Text) : Prop :=
  x ∈ b.parents ∨ x ≠ b.name ∧
    ((∃ d ∈ b.declarations, x ∈ Reference.namesFrom d.value) ∨
      ∃ p ∈ b.parents, ∃ P, built p = some P ∧ ∃ raw, P.Holds raw ∧ x ∈ Reference.namesFrom raw)

theorem ofBlock_ok {b : Block} (h : ofBlock b L overwrite = .ok s) :
    ∃ m, mergeParents b.line L (.new b.name) b.parents = .ok m ∧
      declareLines overwrite L m b.declarations = .ok s := by
  simp only [ofBlock] at h
  split at h
  · cases h
  · next m hm => exact ⟨m, hm, h⟩

theorem name_of_ofBlock {b : Block} (h : ofBlock b L overwrite = .ok s) : s.name = b.name := by
  obtain ⟨m, hm, h⟩ := ofBlock_ok h
  rw [name_of_declareLines h, name_of_mergeParents hm]
  rfl

/-- A block that was built is built alike where the sections that it consults are found. -/
theorem ofBlock_mono {b : Block} (h : ofBlock b L overwrite = .ok s)
    (hM : Lookup.LeOn (Consults b L) L M) : ofBlock b M overwrite = .ok s := by
  obtain ⟨m, hm, h⟩ := ofBlock_ok h
  have hn : m.name = b.name := name_of_mergeParents hm
  have hmerge : mergeParents b.line M (.new b.name) b.parents = .ok m := by
    refine mergeParents_mono hm (hM.mono fun x hx => .inl hx) ?_ fun p hp P hP raw hr => ?_
    · rintro raw ⟨p, hp, -⟩
      cases hp
    · exact hM.mono fun x hx => .inr ⟨hx.1, .inr ⟨p, hp, P, hP, raw, hr, hx.2⟩⟩
  simp only [ofBlock, hmerge]
  refine declareLines_mono h fun d hd => ?_
  rw [hn]
  exact hM.mono fun x hx => .inr ⟨hx.1, .inl ⟨d, hd, hx.2⟩⟩

end Construction

end Lineage
