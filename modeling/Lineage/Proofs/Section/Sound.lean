import Lineage.Proofs.Construction.Overrides
import Lineage.Proofs.Section.Assigned
import Lineage.Proofs.Section.Traced
/-!
# What calls keep of a section

Every property of a section has it as the owner, and what is inherited is marked as a copy
(`marked_call`). Keys stay different as long as no merge fails (`nodup_call`). Sections that are
built from a text are so from the start (`sound_of_sections`).
-/
namespace Lineage

/-- Inherited properties are copies. -/
def Property.Marked (p : Property) : Prop := p.inherited = true → p.cloned = true

namespace Section

/-- Every property is owned by the section, and marked as a copy if it is inherited. -/
def Marked (s : Section) : Prop := ∀ p ∈ s.properties, p.owner = some s.name ∧ p.Marked

variable {s s' m parent : Section} {c : Call} {p q : Property} {f : Property → Property}
  {overwrite : Bool} {L : Lookup} {key name : Text} {ps : List Property} {parents : List Section}

/-! ## Properties before and behind a call -/

/-- The section traced from now on, as if all of its properties had been assigned. -/
def traced (s : Section) : Traced := ⟨s.name, s.parents, s.properties.map (⟨·, .assigned⟩)⟩

theorem untraced_traced (s : Section) : s.traced.untraced = s := by
  simp [traced, Traced.untraced, Function.comp_def]

theorem name_call (s : Section) (c : Call) : (s.call c).state.name = s.name := by
  have hname := (Traced.frame_call s.traced c).1
  have huntraced := Traced.untraced_call s.traced c
  rw [untraced_traced] at huntraced
  rw [← huntraced]
  exact hname

/-- The marks of what a call leaves behind come from a property before it, or from what it put. -/
theorem mem_call (h : q ∈ (s.call c).state.properties) :
    (∃ p ∈ s.properties, p.Continues q) ∨
    (∃ p overwrite, c = .insert p overwrite ∧ q = p.attach s.name) ∨
    (∃ key v, c = .set key v ∧ q = (Property.new key v .blank).attach s.name) ∨
    ∃ p : Property, (p.inheritedBy s.name).Continues q := by
  have huntraced := Traced.untraced_call s.traced c
  rw [untraced_traced] at huntraced
  rw [← huntraced] at h
  obtain ⟨e', he', rfl⟩ := List.mem_map.1 h
  cases Traced.came_of_mem_call he' with
  | kept e he hsame =>
    obtain ⟨p, hp, rfl⟩ := List.mem_map.1 he
    exact .inl ⟨p, hp, hsame.property⟩
  | inserted p overwrite hc heq =>
    subst heq
    exact .inr (.inl ⟨p, overwrite, hc, rfl⟩)
  | assigned key v hc heq =>
    subst heq
    exact .inr (.inr (.inl ⟨key, v, hc, rfl⟩))
  | merged parent overwrite L p hc hp hsame => exact .inr (.inr (.inr ⟨p, hsame.property⟩))

theorem marked_call (h : s.Marked) (hc : ∀ p overwrite, c = .insert p overwrite → p.Marked) :
    (s.call c).state.Marked := by
  intro q hq
  rw [name_call]
  rcases mem_call hq with ⟨p, hp, hpq⟩ | ⟨p, overwrite, hins, rfl⟩ | ⟨key, v, -, rfl⟩ | ⟨p, hpq⟩
  · obtain ⟨howner, hmarked⟩ := h p hp
    refine ⟨hpq.owner.trans howner, fun hi => ?_⟩
    rw [hpq.cloned]
    exact hmarked (hpq.inherited ▸ hi)
  · exact ⟨rfl, hc p overwrite hins⟩
  · exact ⟨rfl, nofun⟩
  · exact ⟨hpq.owner, fun _ => hpq.cloned⟩

/-! ## Keys -/

theorem nodup_of_insert (h : s.insert p overwrite = .ok s') (hs : s.keys.Nodup) :
    s'.keys.Nodup := by
  have hall := Construction.insert_overwrite h
  rw [insert_eq hs] at hall
  cases hall
  exact nodup_overlay hs (List.nodup_singleton p.key)

theorem nodup_modify (hs : s.keys.Nodup) (hf : ∀ p : Property, (f p).key = p.key) (key : Text) :
    (s.modify key f).keys.Nodup := by
  have hkeys : (s.modify key f).keys = s.keys := map_modifyFirst (fun p _ => hf p) s.properties
  rwa [hkeys]

theorem nodup_of_inheritWith (h : (s.inheritWith parent overwrite L).toExcept = .ok s') :
    s'.keys.Nodup := by
  obtain ⟨m, hm, hd⟩ := inheritWith_ok_iff.1 h
  rw [(sameShape_of_rederiveAll hd).keys]
  exact nodup_of_validate hm

theorem nodup_erase (hs : s.keys.Nodup) (key : Text) : (s.erase key).keys.Nodup :=
  hs.sublist (List.eraseP_sublist.map _)

/-- The keys stay different, unless a merge fails. -/
theorem nodup_call (hs : s.keys.Nodup)
    (hc : c.isMerge = true → ∀ f, (s.call c).result ≠ .error f) :
    (s.call c).state.keys.Nodup := by
  cases c with
  | insert p overwrite =>
    rw [call_insert]
    cases h : s.insert p overwrite with
    | error f => exact hs
    | ok s' => exact nodup_of_insert h hs
  | set key v => exact nodup_set hs key v
  | setValue key v => exact nodup_modify (f := (·.setValue v)) hs (fun _ => rfl) key
  | setComment key comment =>
    exact nodup_modify (f := (·.setComment comment)) hs (fun _ => rfl) key
  | erase key => exact nodup_erase hs key
  | validate overwrite =>
    rw [call_validate]
    cases h : s.validate overwrite with
    | error f => exact hs
    | ok s' => exact nodup_of_validate h
  | inheritWith parent overwrite L =>
    rw [call_inheritWith] at hc ⊢
    have hok : (s.inheritWith parent overwrite L).toExcept =
        .ok (s.inheritWith parent overwrite L).state := by
      unfold Attempt.toExcept
      cases h : (s.inheritWith parent overwrite L).result with
      | error f => exact absurd h (hc rfl f)
      | ok u => rfl
    exact nodup_of_inheritWith hok

/-! ## Sections that are built -/

theorem marked_new (name : Text) : (new name).Marked := by
  intro p hp
  cases hp

theorem marked_of_inheritWith (h : (s.inheritWith parent overwrite L).toExcept = .ok s')
    (hs : s.Marked) : s'.Marked := by
  rw [← call_inheritWith] at h
  rw [← Attempt.state_of_toExcept h]
  apply marked_call hs
  rintro _ _ ⟨⟩

theorem marked_of_insert (h : s.insert p overwrite = .ok s') (hs : s.Marked) (hp : p.Marked) :
    s'.Marked := by
  have hcall := call_insert s p overwrite
  rw [h] at hcall
  have hstate : (s.call (.insert p overwrite)).state = s' := congrArg Attempt.state hcall
  rw [← hstate]
  refine marked_call hs fun p' overwrite' heq => ?_
  cases heq
  exact hp

/-- A section that inherits is sound. -/
theorem sound_of_withParents (h : withParents name parents = .ok s) :
    s.Marked ∧ s.keys.Nodup := by
  have main : ∀ s₀ : Section, s₀.Marked → s₀.keys.Nodup →
      parents.foldlM (fun s parent => (s.inherit parent true).toExcept) s₀ = .ok s →
        s.Marked ∧ s.keys.Nodup := by
    clear h
    induction parents with
    | nil =>
      intro s₀ hmarked hkeys h
      cases h
      exact ⟨hmarked, hkeys⟩
    | cons parent parents ih =>
      intro s₀ hmarked hkeys h
      obtain ⟨m, hm, h⟩ := mergeAll_cons_ok h
      exact ih m (marked_of_inheritWith hm hmarked) (nodup_of_inheritWith hm) h
  exact main (new name) (marked_new name) List.nodup_nil h

end Section

namespace Construction

open Source Section

variable {L : Lookup} {s s' m : Section} {b : Block} {ps : List Text} {ds : List Declaration}
  {line : Nat} {overwrite : Bool}

theorem marked_of_mergeParents (h : mergeParents line L s ps = .ok s') (hs : s.Marked) :
    s'.Marked := by
  induction ps generalizing s with
  | nil =>
    cases h
    exact hs
  | cons p ps ih =>
    obtain ⟨P, m, -, hm, h⟩ := mergeParents_cons_ok h
    exact ih h (marked_of_inheritWith hm hs)

theorem marked_of_declareLines (h : declareLines overwrite L s ds = .ok s') (hs : s.Marked) :
    s'.Marked := by
  induction ds generalizing s with
  | nil =>
    cases h
    exact hs
  | cons d ds ih =>
    obtain ⟨p, m, hp, hm, h⟩ := declareLines_cons_ok h
    refine ih h (marked_of_insert hm hs ?_)
    rw [property_eq_new hp]
    exact nofun

theorem marked_of_ofBlock (h : ofBlock b L overwrite = .ok s) : s.Marked := by
  obtain ⟨m, hm, hs⟩ := ofBlock_ok h
  exact marked_of_declareLines hs (marked_of_mergeParents hm (marked_new b.name))

theorem sound_of_sections {t : Text} {o : Options} {ss : List Section}
    (h : sections t o = .ok ss) :
    (ss.map Section.name).Nodup ∧ ∀ s ∈ ss, s.Marked ∧ s.keys.Nodup := by
  obtain ⟨blocks, -, hsections⟩ := sections_ok h
  have hfinished := finished_of_sectionsOf hsections
  obtain ⟨order, -, horder, -⟩ := sectionsOf_ok_iff.1 hsections
  -- blocks of one name have no order of construction
  have hnames : (ss.map Section.name).Nodup :=
    hfinished.names ▸ names_nodup_of_construction horder
  refine ⟨hnames, fun s hs => ?_⟩
  obtain ⟨b, -, hfind, hb⟩ := exists_right_of_forall₂ hfinished.flip hs
  exact ⟨marked_of_ofBlock hb, nodup_keys_of_finished (finished_true hfinished) hfind⟩

end Construction
end Lineage
