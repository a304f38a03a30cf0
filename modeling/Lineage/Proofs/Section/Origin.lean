import Lineage.Proofs.Section.Listed
import Lineage.Proofs.Section.Traced
/-!
# Hidden properties

What is written of a section as its differences leaves out properties that were inherited and not
changed. Such a property was merged from a parent that the section notes, unless it was hidden
already when it was inserted: a copy of an inherited property keeps its marks. A difference that is
inserted stays written until its key is taken over (`origin_of_hidden`).
-/
namespace Lineage.Section

variable {t : Traced} {s : Section} {c : Call} {cs : List Call} {e e' : Slot} {es es' : List Slot}
  {p q : Property} {key k : Text} {f : Property → Property} {o : Origin} {ps ps' : List Text}

/-! ## Marks and origins -/

/-- What the origin of a property in a section with these parents says about its marks. -/
def Origin.Fits (parents : List Text) (q : Property) : Origin → Prop
  | inserted p => ∃ owner, (p.attach owner).Continues q
  | assigned => q.inherited = false
  | merged parent => parent ∈ parents

theorem Origin.Fits.mono (h : o.Fits ps p) (hps : ps ⊆ ps') (hpq : p.Continues q) :
    o.Fits ps' q := by
  cases o with
  | inserted d =>
    obtain ⟨owner, hd⟩ := h
    exact ⟨owner, hd.trans hpq⟩
  | assigned => exact hpq.inherited.trans h
  | merged parent => exact hps h

namespace Traced

/-- Every property has the marks that its origin says. -/
def Fits (t : Traced) : Prop := ∀ e ∈ t.slots, e.origin.Fits t.parents e.property

/-- Calls leave marks that say the origins. -/
theorem fits_call (h : t.Fits) (c : Call) : (t.call c).Fits := by
  intro e' he'
  -- a parent that was noted stays noted, so old slots still fit
  have hparents := (frame_call t c).2
  have hsub : t.parents ⊆ (t.call c).parents := by
    rw [hparents]
    exact List.subset_append_left _ _
  cases came_of_mem_call he' with
  | kept e he hsame =>
    rw [hsame.origin]
    exact (h e he).mono hsub hsame.property
  | inserted p overwrite _ heq =>
    subst heq
    exact ⟨t.name, .refl _⟩
  | assigned key v _ heq =>
    subst heq
    rfl
  | merged parent overwrite L p hc hp hsame =>
    subst hc
    rw [hsame.origin, hparents]
    exact List.mem_append_right _ (List.mem_singleton_self _)

theorem fits_calls (h : t.Fits) (cs : List Call) : (t.calls cs).Fits := by
  induction cs generalizing t with
  | nil => exact h
  | cons c cs ih => exact ih (fits_call h c)

theorem fits_new (name : Text) : (new name).Fits := by
  intro e he
  cases he

/-- A section that inherits from the given ones. -/
def withParents (name : Text) (parents : List Section) : Traced :=
  (new name).calls (parents.map (.inherit · true))

/-- Without its slots, a traced heir is the heir. -/
theorem untraced_withParents {name : Text} {parents : List Section}
    (h : Section.withParents name parents = .ok s) :
    (withParents name parents).untraced = s := by
  have main : ∀ s₀ : Section,
      parents.foldlM (fun s parent => (s.inherit parent true).toExcept) s₀ = .ok s →
        s₀.calls (parents.map (.inherit · true)) = s := by
    clear h
    induction parents with
    | nil => intro s₀ h; exact Except.ok.inj h
    | cons parent parents ih =>
      intro s₀ h
      obtain ⟨m, hm, h⟩ := mergeAll_cons_ok h
      have hstate : (s₀.call (.inherit parent true)).state = m := by
        rw [call_inherit]
        exact Attempt.state_of_toExcept hm
      refine Eq.trans ?_ (ih m h)
      change Section.calls (s₀.call (.inherit parent true)).state _ = _
      rw [hstate]
  rw [withParents, untraced_calls]
  exact main _ h

/-- What calls leave behind of a new section, or of one with parents. -/
inductive Reached : Traced → Prop where
  | new (name : Text) : Reached (new name)
  | withParents {name : Text} {parents : List Section} {s : Section}
      (h : Section.withParents name parents = .ok s) : Reached (withParents name parents)
  | call {t : Traced} (h : Reached t) (c : Call) : Reached (t.call c)

theorem Reached.fits (h : Reached t) : t.Fits := by
  induction h with
  | new name => exact fits_new name
  | withParents _ => exact fits_calls (fits_new _) _
  | call _ c ih => exact fits_call ih c

end Traced

/-! ## The last slot under a key -/

namespace Slot

/-- The last slot whose property has the key. -/
def lastUnder? (key : Text) : List Slot → Option Slot
  | [] => none
  | e :: es => (lastUnder? key es).or (if e.property.key = key then some e else none)

theorem lastUnder?_eq_none_iff :
    lastUnder? key es = none ↔ ∀ e ∈ es, e.property.key ≠ key := by
  induction es with
  | nil => simp [lastUnder?]
  | cons e es ih =>
    rw [lastUnder?, Option.or_eq_none_iff, ih, List.forall_mem_cons]
    by_cases h : e.property.key = key <;> simp [h]

theorem mem_of_lastUnder? (h : lastUnder? key es = some e) :
    e ∈ es ∧ e.property.key = key := by
  induction es with
  | nil => cases h
  | cons e₀ es ih =>
    rw [lastUnder?, Option.or_eq_some_iff] at h
    rcases h with h | ⟨-, h⟩
    · exact ⟨List.mem_cons_of_mem _ (ih h).1, (ih h).2⟩
    · split at h
      · next hk =>
        cases h
        exact ⟨List.mem_cons_self, hk⟩
      · cases h

theorem lastUnder?_append (es es' : List Slot) : lastUnder? key (es ++ es') =
    (lastUnder? key es').or (lastUnder? key es) := by
  induction es with
  | nil => simp [lastUnder?]
  | cons e es ih => rw [List.cons_append, lastUnder?, ih, lastUnder?, Option.or_assoc]

theorem lastUnder?_eraseP (h : k ≠ key) :
    lastUnder? key (es.eraseP (·.property.key == k)) = lastUnder? key es := by
  induction es with
  | nil => rfl
  | cons e es ih =>
    by_cases hk : e.property.key = k
    · rw [List.eraseP_cons_of_pos (by simpa using hk), lastUnder?, if_neg (hk ▸ h), Option.or_none]
    · rw [List.eraseP_cons_of_neg (by simpa using hk), lastUnder?, ih, lastUnder?]

/-- What stands last under a key is kept. -/
theorem lastUnder?_keepLast (es : List Slot) :
    lastUnder? key (keepLast Slot.key es) = lastUnder? key es := by
  induction es with
  | nil => rfl
  | cons e es ih =>
    rw [keepLast, lastUnder?]
    split
    · next hany =>
      rw [ih]
      split
      · next hk =>
        -- another slot with the key stands behind this one
        cases hlast : lastUnder? key es with
        | some e' => rfl
        | none =>
          obtain ⟨e', he', hsame⟩ := List.any_eq_true.1 hany
          exact absurd ((beq_iff_eq.1 hsame).trans hk) (lastUnder?_eq_none_iff.1 hlast e' he')
      · rw [Option.or_none]
    · rw [lastUnder?, ih]

/-- What stands last under a key goes on in what stands there after a change. -/
theorem lastUnder?_modifyFirst (hf : ∀ p : Property, p.Continues (f p))
    (h : lastUnder? key es = some e) :
    ∃ e', lastUnder? key (modifyFirst Slot.key (Slot.modify f) k es) = some e' ∧
      e.Continues e' := by
  induction es with
  | nil => cases h
  | cons e₀ es ih =>
    rw [lastUnder?] at h
    rw [modifyFirst]
    cases hlast : lastUnder? key es with
    | some e₁ =>
      rw [hlast, Option.some_or] at h
      cases h
      split
      · exact ⟨e, by rw [lastUnder?, hlast, Option.some_or], .refl e⟩
      · obtain ⟨e', he', hsame⟩ := ih hlast
        exact ⟨e', by rw [lastUnder?, he', Option.some_or], hsame⟩
    | none =>
      rw [hlast, Option.none_or] at h
      split at h
      case isFalse => cases h
      next hkey =>
      cases h
      split
      · have hkey' : (modify f e).property.key = key := (hf e.property).key.trans hkey
        exact ⟨modify f e, by rw [lastUnder?, hlast, Option.none_or, if_pos hkey'],
          hf e.property, rfl⟩
      · refine ⟨e, ?_, .refl e⟩
        have hnone : lastUnder? key (modifyFirst Slot.key (Slot.modify f) k es) = none := by
          rw [lastUnder?_eq_none_iff] at hlast ⊢
          intro e' he'
          obtain ⟨e₁, he₁, hsame⟩ := continues_of_mem_modifyFirst hf he'
          rw [hsame.property.key]
          exact hlast e₁ he₁
        rw [lastUnder?, hnone, Option.none_or, if_pos hkey]

end Slot

/-! ## Differences stay -/

/-- Whether the call removes or replaces the property with the key, or merges another over it. -/
def Call.takesOver (key : Text) : Call → Bool
  | insert p overwrite => overwrite && p.key == key
  | erase k => k == key
  | inheritWith parent _ _ => parent.hasKey key
  | _ => false

namespace Traced

open Slot

theorem lastUnder?_append (t : Traced) (p : Property) (o : Origin) :
    lastUnder? p.key (t.append p o).slots = some ⟨p.attach t.name, o⟩ := by
  unfold append
  rw [Slot.lastUnder?_append]
  simp [lastUnder?, Property.attach]

theorem lastUnder?_append_ne (h : p.key ≠ key) (o : Origin) :
    lastUnder? key (t.append p o).slots = lastUnder? key t.slots := by
  unfold append
  rw [Slot.lastUnder?_append]
  simp [lastUnder?, Property.attach, h]

theorem lastUnder?_appendCopies {parent : Section} (h : parent.hasKey key = false) :
    lastUnder? key (t.appendCopies parent).slots = lastUnder? key t.slots := by
  unfold appendCopies
  have hnone : lastUnder? key (parent.properties.map fun p =>
      (⟨p.inheritedBy t.name, .merged parent.name⟩ : Slot)) = none := by
    rw [lastUnder?_eq_none_iff]
    intro e he hk
    obtain ⟨p, hp, rfl⟩ := List.mem_map.1 he
    have hnone : parent.get? key = none :=
      Option.not_isSome_iff_eq_none.1 (ne_true_of_eq_false h)
    exact get?_eq_none_iff.1 hnone (List.mem_map.2 ⟨p, hp, hk⟩)
  rw [Slot.lastUnder?_append, hnone, Option.none_or]

theorem hasKey_of_lastUnder? (h : lastUnder? key t.slots = some e) :
    t.untraced.hasKey key = true := by
  obtain ⟨he, hk⟩ := mem_of_lastUnder? h
  cases hg : t.untraced.get? key with
  | some p => rw [hasKey, hg]; rfl
  | none =>
    refine absurd ?_ (get?_eq_none_iff.1 hg)
    exact List.mem_map.2 ⟨e.property, List.mem_map_of_mem he, hk⟩

/-- It goes on in what is derived again as well. -/
theorem lastUnder?_rederiveAll {parent : Text} {L : Lookup} {keys : List Text}
    (h : lastUnder? key t.slots = some e) :
    ∃ e', lastUnder? key (rederiveAll parent L keys t).slots = some e' ∧ e.Continues e' := by
  induction keys generalizing t e with
  | nil => exact ⟨e, h, .refl e⟩
  | cons k keys ih =>
    unfold rederiveAll
    split
    · exact ⟨e, h, .refl e⟩
    · have hone : ∃ e₁, lastUnder? key (t.rederive parent k L).slots = some e₁ ∧
          e.Continues e₁ := by
        unfold rederive
        split
        · exact ⟨e, h, .refl e⟩
        · split
          · exact lastUnder?_modifyFirst (fun p => p.continues_setDerived _) h
          · exact ⟨e, h, .refl e⟩
      obtain ⟨e₁, h₁, hsame₁⟩ := hone
      obtain ⟨e', h', hsame'⟩ := ih h₁
      exact ⟨e', h', hsame₁.trans hsame'⟩

/-- The last slot under a key stays the last one until the key is taken over. -/
theorem lastUnder?_call (h : lastUnder? key t.slots = some e) (hc : c.takesOver key = false) :
    ∃ e', lastUnder? key (t.call c).slots = some e' ∧ e.Continues e' := by
  cases c with
  | insert p overwrite =>
    change ∃ e', lastUnder? key (t.insert p overwrite).slots = some e' ∧ _
    unfold insert
    split
    · exact ⟨e, h, .refl e⟩
    · next hfree =>
      -- under this key an insertion that may not override has failed: the key is taken
      have hne : p.key ≠ key := by
        intro hk
        simp only [Call.takesOver, hk, beq_self_eq_true, Bool.and_true] at hc
        exact hfree (by rw [hk, hasKey_of_lastUnder? h, hc]; rfl)
      refine ⟨e, ?_, .refl e⟩
      rw [lastUnder?_append_ne hne]
      exact (lastUnder?_eraseP hne).trans h
  | set k v =>
    change ∃ e', lastUnder? key (t.set k v).slots = some e' ∧ _
    unfold set
    split
    · exact lastUnder?_modifyFirst (fun p => p.continues_setValue v) h
    · next hfree =>
      refine ⟨e, ?_, .refl e⟩
      have hne : k ≠ key := fun hk => hfree (hk ▸ hasKey_of_lastUnder? h)
      exact (lastUnder?_append_ne hne _).trans h
  | setValue k v => exact lastUnder?_modifyFirst (fun p => p.continues_setValue v) h
  | setComment k comment =>
    exact lastUnder?_modifyFirst (fun p => p.continues_setComment comment) h
  | erase k => exact ⟨e, (lastUnder?_eraseP (beq_eq_false_iff_ne.1 hc)).trans h, .refl e⟩
  | validate overwrite =>
    change ∃ e', lastUnder? key (t.validate overwrite).slots = some e' ∧ _
    unfold validate
    split
    · exact ⟨e, h, .refl e⟩
    · exact ⟨e, (lastUnder?_keepLast t.slots).trans h, .refl e⟩
  | inheritWith parent overwrite L =>
    change ∃ e', lastUnder? key (t.inheritWith parent overwrite L).slots = some e' ∧ _
    have hcopies := (lastUnder?_appendCopies (t := t) hc).trans h
    unfold inheritWith
    split
    · -- the merge has failed at a repeated key, with the copies behind the slot
      exact ⟨e, hcopies, .refl e⟩
    · exact lastUnder?_rederiveAll ((lastUnder?_keepLast _).trans hcopies)

theorem lastUnder?_calls (h : lastUnder? key t.slots = some e)
    (hcs : ∀ c ∈ cs, c.takesOver key = false) :
    ∃ e', lastUnder? key (t.calls cs).slots = some e' ∧ e.Continues e' := by
  induction cs generalizing t e with
  | nil => exact ⟨e, h, .refl e⟩
  | cons c cs ih =>
    rw [List.forall_mem_cons] at hcs
    obtain ⟨e₁, h₁, hsame₁⟩ := lastUnder?_call h hcs.1
    obtain ⟨e', h', hsame'⟩ := ih h₁ hcs.2
    exact ⟨e', h', hsame₁.trans hsame'⟩

theorem lastUnder?_insert {overwrite : Bool}
    (h : (t.untraced.call (.insert p overwrite)).result = .ok ()) :
    lastUnder? p.key (t.call (.insert p overwrite)).slots =
      some ⟨p.attach t.name, .inserted p⟩ := by
  change lastUnder? p.key (t.insert p overwrite).slots = _
  unfold insert
  split
  · next htaken =>
    rw [call_insert, Section.insert, if_pos htaken] at h
    cases h
  · exact lastUnder?_append (t.erase p.key) p _

/-- What is not written as a difference was merged from a parent that is noted, or was inserted as
no difference. A difference that was inserted is written until its key is taken over. -/
theorem origin_of_hidden (h : Reached t) :
    (∀ e ∈ t.slots, e.property.isDifference = false →
      (∃ parent ∈ t.parents, e.origin = .merged parent) ∨
        ∃ p, e.origin = .inserted p ∧ p.isDifference = false) ∧
    ∀ p overwrite cs, (t.untraced.call (.insert p overwrite)).result = .ok () →
      p.isDifference = true → (∀ c ∈ cs, c.takesOver p.key = false) →
        ∃ q ∈ (t.untraced.calls (.insert p overwrite :: cs)).written .diff,
          q.key = p.key ∧ ⟨q, .inserted p⟩ ∈ (t.calls (.insert p overwrite :: cs)).slots := by
  constructor
  · intro e he hmarks
    have hfits := h.fits e he
    cases ho : e.origin with
    | inserted p =>
      rw [ho] at hfits
      obtain ⟨owner, hp⟩ := hfits
      refine .inr ⟨p, rfl, Bool.eq_false_iff.2 fun hd => ?_⟩
      rw [hp.isDifference hd] at hmarks
      cases hmarks
    | assigned =>
      rw [ho] at hfits
      have hlocal : e.property.inherited = false := hfits
      rw [Property.isDifference, hlocal] at hmarks
      cases hmarks
    | merged parent =>
      rw [ho] at hfits
      exact .inl ⟨parent, hfits, rfl⟩
  · intro p overwrite cs hok hd hcs
    obtain ⟨⟨q, o⟩, hlast, hsame⟩ := lastUnder?_calls (lastUnder?_insert hok) hcs
    obtain ⟨hmem, hkey⟩ := mem_of_lastUnder? hlast
    have ho : o = .inserted p := hsame.origin
    subst ho
    refine ⟨q, mem_written_diff.2 ⟨?_, hsame.property.isDifference hd⟩, hkey, hmem⟩
    rw [← untraced_calls]
    exact List.mem_map_of_mem hmem

/-- An heir whose parent is merged twice, with a property of its own between. -/
theorem origin_of_hidden_twiceMerged :
    let parent := (Section.new ['A']).set ['x'] (.bool true)
    let t := (new ['C']).call (.inherit parent true)
    let p := Property.new ['y'] (.bool true) .blank
    (∃ e ∈ t.slots, e.property.isDifference = false ∧
      ∃ name ∈ t.parents, e.origin = .merged name) ∧
    ∃ q ∈ (t.untraced.calls [.insert p false, .inherit parent true, .validate false]).written .diff,
      q.key = ['y'] := by
  intro parent t p
  obtain ⟨hhidden, hstays⟩ := origin_of_hidden (.call (.new ['C']) (.inherit parent true))
  constructor
  · have hslots : t.slots = [⟨⟨['x'], .bool true, .blank, some ['C'], true, false, true⟩,
        .merged ['A']⟩] := by with_unfolding_all rfl
    refine ⟨_, hslots ▸ List.mem_singleton_self _, rfl, ?_⟩
    exact (hhidden _ (hslots ▸ List.mem_singleton_self _) rfl).resolve_right nofun
  · obtain ⟨q, hq, hkey, -⟩ := hstays p false [.inherit parent true, .validate false]
      (by with_unfolding_all rfl) rfl (by decide +kernel)
    exact ⟨q, hq, hkey⟩

/-- A copy of an inherited property is hidden where it is inserted, though nothing is inherited
there. -/
example :
    let a := (Section.new ['A']).set ['x'] (.bool true)
    let b := ((Section.new ['B']).call (.inherit a true)).state
    ∃ p, b.get? ['x'] = some p ∧
      let c := ((Section.new ['C']).call (.insert p.detach true)).state
      c.parents = [] ∧ c.keys = [['x']] ∧ c.written .diff = [] := by
  refine ⟨⟨['x'], .bool true, .blank, some ['B'], true, false, true⟩, ?_, ?_⟩
  · with_unfolding_all rfl
  · refine ⟨?_, ?_, ?_⟩ <;> with_unfolding_all rfl

end Traced
end Lineage.Section
