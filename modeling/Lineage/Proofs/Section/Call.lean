import Lineage.Proofs.Section.Keys
import Lineage.Proofs.Section.Alike
import Lineage.Section.Call
/-!
# Calls that fail

A call, effect by effect, does what the function of its name says (`call_insert`,
`call_inheritWith`, ...). A declaration or a validation that fails has changed nothing. A merge that
fails has: by then the parent is noted and its copies are there (`state_of_failed_call`).
-/
namespace Lineage.Section

open Effect

variable {s s' m parent : Section} {p : Property} {ps : List Property} {overwrite : Bool}
  {L : Lookup} {f : Fault} {key : Text} {keys : List Text} {c : Call}

/-! ## Calls and functions -/

theorem eraseP_of_not_hasKey (h : s.hasKey key = false) :
    s.properties.eraseP (·.key == key) = s.properties := by
  refine List.eraseP_of_forall_not fun q hq => ?_
  exact List.find?_eq_none.1 (Option.not_isSome_iff_eq_none.1 (ne_true_of_eq_false h)) q hq

theorem call_insert (s : Section) (p : Property) (overwrite : Bool) :
    s.call (.insert p overwrite) = .keep s (s.insert p overwrite) := by
  unfold call Call.program insertion insert
  rw [attempt_get_bind]
  cases h : s.hasKey p.key with
  | false =>
    rw [eraseP_of_not_hasKey h]
    rfl
  | true => cases overwrite <;> rfl

theorem attempt_validation (s : Section) (overwrite : Bool) :
    (validation overwrite).attempt s = .keep s (s.validate overwrite) := by
  unfold validation validate
  rw [attempt_get_bind]
  cases overwrite <;> cases lastRepeated? s.properties <;> rfl

theorem call_validate (s : Section) (overwrite : Bool) :
    s.call (.validate overwrite) = .keep s (s.validate overwrite) :=
  attempt_validation s overwrite

theorem attempt_rederivation (s : Section) (parent key : Text) (L : Lookup) :
    (rederivation parent L key).attempt s = .keep s (s.rederive parent key L) := by
  unfold rederivation rederive
  rw [attempt_get_bind]
  cases s.get? key with
  | none => rfl
  | some p =>
    simp only
    rcases s.rederived? p parent L with f | _ | v <;> rfl

/-- Derivations effect by effect do what they do at once. -/
theorem attempt_rederivations (s : Section) (parent : Text) (L : Lookup) (keys : List Text) :
    (keys.forM (rederivation parent L)).attempt s = rederiveAll parent L keys s := by
  induction keys generalizing s with
  | nil => rfl
  | cons key keys ih =>
    have hkey := attempt_rederivation s parent key L
    unfold rederiveAll
    cases h : s.rederive parent key L with
    | error f =>
      rw [h] at hkey
      exact attempt_bind_of_error hkey
    | ok m =>
      rw [h] at hkey
      exact (attempt_bind_of_ok hkey).trans (ih m)

theorem attempt_copies (s : Section) (ps : List Property) :
    Effect.attempt (ps.forM fun p => change fun s : Section =>
      { s with properties := s.properties ++ [p.inheritedBy s.name] }) s =
        ⟨{ s with properties := s.properties ++ ps.map (·.inheritedBy s.name) }, .ok ()⟩ := by
  induction ps generalizing s with
  | nil => simp
  | cons p ps ih =>
    refine (attempt_change_bind _ s).trans ((ih _).trans ?_)
    simp

/-- Other calls than merges do all or nothing. -/
theorem exists_call_keep (h : c.isMerge = false) : ∃ r, s.call c = .keep s r := by
  cases c with
  | insert p overwrite => exact ⟨_, call_insert s p overwrite⟩
  | set key v => exact ⟨.ok (s.set key v), rfl⟩
  | setValue key v => exact ⟨.ok (s.modify key (·.setValue v)), rfl⟩
  | setComment key comment => exact ⟨.ok (s.modify key (·.setComment comment)), rfl⟩
  | erase key => exact ⟨.ok (s.erase key), rfl⟩
  | inheritWith parent overwrite L => cases h
  | validate overwrite => exact ⟨_, call_validate s overwrite⟩

theorem call_inheritWith (s parent : Section) (overwrite : Bool) (L : Lookup) :
    s.call (.inheritWith parent overwrite L) = s.inheritWith parent overwrite L := by
  have hvalidate := attempt_validation (s.appendCopies parent) overwrite
  unfold call Call.program merging inheritWith
  rw [attempt_change_bind, attempt_bind_of_ok (attempt_copies _ _)]
  cases h : (s.appendCopies parent).validate overwrite with
  | error f =>
    rw [h] at hvalidate
    exact attempt_bind_of_error hvalidate
  | ok m =>
    rw [h] at hvalidate
    exact (attempt_bind_of_ok hvalidate).trans (attempt_rederivations m _ _ _)

theorem call_inherit (s parent : Section) (overwrite : Bool) :
    s.call (.inherit parent overwrite) = s.inherit parent overwrite :=
  call_inheritWith s parent overwrite parent.only

/-- Parents are merged in turn. -/
theorem mergeAll_cons_ok {parents : List Section}
    (h : (parent :: parents).foldlM (fun s parent => (s.inherit parent true).toExcept) s =
      .ok s') :
    ∃ m, (s.inherit parent true).toExcept = .ok m ∧
      parents.foldlM (fun s parent => (s.inherit parent true).toExcept) m = .ok s' := by
  rw [List.foldlM_cons] at h
  cases hm : (s.inherit parent true).toExcept with
  | error f =>
    rw [hm] at h
    cases h
  | ok m =>
    rw [hm] at h
    exact ⟨m, rfl, h⟩

/-! ## Repeated keys -/

theorem lastRepeated?_eq_none_iff :
    lastRepeated? ps = none ↔ (ps.map Property.key).Nodup := by
  induction ps with
  | nil => simp [lastRepeated?]
  | cons p ps ih =>
    rw [lastRepeated?, Option.or_eq_none_iff, ih, any_key_eq, List.map_cons, List.nodup_cons]
    by_cases h : p.key ∈ ps.map Property.key <;> simp [h]

theorem validate_eq_error (h : s.validate overwrite = .error f) :
    overwrite = false ∧ ¬ s.keys.Nodup ∧ ∃ key, f = s.duplicateKey key := by
  unfold validate at h
  split at h
  · next key hkey =>
    cases h
    refine ⟨rfl, fun hn => ?_, key, rfl⟩
    rw [lastRepeated?_eq_none_iff.2 hn] at hkey
    cases hkey
  · cases h

/-- A declaration fails at a key that is taken, if it may not replace. -/
theorem insert_eq_error (h : s.insert p overwrite = .error f) :
    overwrite = false ∧ f = s.duplicateKey p.key := by
  unfold Section.insert at h
  split at h
  · next hp =>
    cases h
    rw [Bool.and_eq_true, Bool.not_eq_true'] at hp
    exact ⟨hp.2, rfl⟩
  · cases h

/-- A validation succeeds if it may drop declarations or has none to drop. -/
theorem validate_ok_iff : s.validate overwrite = .ok m ↔
    (overwrite = true ∨ s.keys.Nodup) ∧
      m = { s with properties := keepLast Property.key s.properties } := by
  constructor
  · intro h
    refine ⟨?_, validate_ok h⟩
    cases overwrite with
    | true => exact .inl rfl
    | false =>
      refine .inr (lastRepeated?_eq_none_iff.1 ?_)
      cases hkey : lastRepeated? s.properties with
      | none => rfl
      | some key =>
        simp only [validate, hkey] at h
        cases h
  · rintro ⟨hmay, rfl⟩
    cases hv : s.validate overwrite with
    | ok m => rw [validate_ok hv]
    | error f =>
      obtain ⟨rfl, hn, -⟩ := validate_eq_error hv
      exact absurd (hmay.resolve_left Bool.false_ne_true) hn

theorem nodup_of_validate (h : s.validate overwrite = .ok m) : m.keys.Nodup := by
  rw [validate_ok h]
  exact nodup_keepLast _

theorem validate_of_nodup (h : s.keys.Nodup) (overwrite : Bool) :
    s.validate overwrite = .ok s := by
  rw [validate_ok_iff, keepLast_of_nodup h]
  exact ⟨.inr h, rfl⟩

/-- A validation that may drop nothing drops nothing. -/
theorem validate_false_ok_iff : s.validate false = .ok m ↔ s.keys.Nodup ∧ m = s := by
  constructor
  · intro h
    obtain ⟨hmay, hm⟩ := validate_ok_iff.1 h
    have hkeys := hmay.resolve_left Bool.false_ne_true
    exact ⟨hkeys, by rw [hm, keepLast_of_nodup hkeys]⟩
  · rintro ⟨hkeys, rfl⟩
    exact validate_of_nodup hkeys false

/-! ## Merges that fail -/

/-- What a merge of `parent` into `s` that fails with `f` leaves behind: the section `s'`. -/
inductive HalfMerged (s parent : Section) (overwrite : Bool) (L : Lookup) (f : Fault)
    (s' : Section) : Prop where
  /-- A key stands twice where it may not: all properties and all copies are there. -/
  | repeated (key : Text) (forbidden : overwrite = false) (fault : f = s.duplicateKey key)
      (state : s' = s.appendCopies parent) (twice : ¬ s'.keys.Nodup)
  /-- The copies have taken over as in `m`, and one of them cannot be derived again: those before
  it were, and it and those behind it still have the values of the parent. -/
  | underived (m : Section) (before after : List Text) (key : Text)
      (merged : (s.appendCopies parent).validate overwrite = .ok m)
      (derived : parent.derivedKeys = before ++ key :: after) (shape : SameShape m s')
      (rest : ∀ k, k ∉ before → s'.get? k = m.get? k)
      (fault : s'.rederive parent.name key L = .error f) (once : s'.keys.Nodup)

/-- Derivations stop at the first that fails. -/
theorem exists_of_rederiveAll_error {name : Text}
    (h : (rederiveAll name L keys s).result = .error f) :
    ∃ before key after, keys = before ++ key :: after ∧
      (rederiveAll name L before s).toExcept = .ok (rederiveAll name L keys s).state ∧
      (rederiveAll name L keys s).state.rederive name key L = .error f := by
  induction keys generalizing s with
  | nil => cases h
  | cons key keys ih =>
    cases hkey : s.rederive name key L with
    | error g =>
      simp only [rederiveAll, hkey] at h ⊢
      cases h
      exact ⟨[], key, keys, rfl, rfl, hkey⟩
    | ok m =>
      simp only [rederiveAll, hkey] at h ⊢
      obtain ⟨before, k, after, rfl, hdone, hfault⟩ := ih h
      exact ⟨key :: before, k, after, rfl, by simp only [rederiveAll, hkey, hdone], hfault⟩

/-- A merge fails in one of the two ways. -/
theorem halfMerged_of_error (h : (s.inheritWith parent overwrite L).result = .error f) :
    HalfMerged s parent overwrite L f (s.inheritWith parent overwrite L).state := by
  unfold inheritWith at h ⊢
  cases hv : (s.appendCopies parent).validate overwrite with
  | error g =>
    simp only [hv] at h ⊢
    cases h
    obtain ⟨hforbidden, htwice, key, hfault⟩ := validate_eq_error hv
    exact .repeated key hforbidden hfault rfl htwice
  | ok m =>
    simp only [hv] at h ⊢
    obtain ⟨before, key, after, hkeys, hdone, hfault⟩ := exists_of_rederiveAll_error h
    have hshape := sameShape_of_rederiveAll hdone
    refine .underived m before after key hv hkeys hshape
      (fun k hk => get?_rederiveAll_of_not_mem hdone hk) hfault ?_
    rw [hshape.keys]
    exact nodup_of_validate hv

theorem HalfMerged.name (h : HalfMerged s parent overwrite L f s') : s'.name = s.name := by
  cases h with
  | repeated key _ _ hs => rw [hs]; rfl
  | underived m _ _ _ hm _ hshape => rw [hshape.name, validate_ok hm]; rfl

theorem HalfMerged.parents (h : HalfMerged s parent overwrite L f s') :
    s'.parents = s.parents ++ [parent.name] := by
  cases h with
  | repeated key _ _ hs => rw [hs]; rfl
  | underived m _ _ _ hm _ hshape => rw [hshape.parents, validate_ok hm]; rfl

/-- A call that fails has changed nothing, unless it merges. A merge that fails has noted the
parent and taken its copies. -/
theorem state_of_failed_call (h : (s.call c).result = .error f) :
    ((s.call c).state = s ↔ c.isMerge = false) ∧
      ∀ parent overwrite L, c = .inheritWith parent overwrite L →
        (s.call c).state.name = s.name ∧ (s.call c).state.parents = s.parents ++ [parent.name] ∧
          HalfMerged s parent overwrite L f (s.call c).state := by
  cases hc : c.isMerge with
  | false =>
    obtain ⟨r, hr⟩ := exists_call_keep (s := s) hc
    rw [hr] at h ⊢
    refine ⟨iff_of_true (Attempt.state_of_keep h) rfl, ?_⟩
    rintro parent overwrite L rfl
    cases hc
  | true =>
    refine ⟨iff_of_false (fun hs => ?_) Bool.false_ne_true.symm, ?_⟩
    · -- the list of parents has grown
      cases c with
      | inheritWith parent overwrite L =>
        rw [call_inheritWith] at h hs
        have hparents := congrArg (fun s => s.parents.length) hs
        simp [(halfMerged_of_error h).parents] at hparents
      | _ => cases hc
    · rintro parent overwrite L rfl
      rw [call_inheritWith] at h ⊢
      have hmerged := halfMerged_of_error h
      exact ⟨hmerged.name, hmerged.parents, hmerged⟩

/-- A section with its name in a text, and a value of a section that heirs do not know. -/
def sender : Section :=
  ⟨['A'], [], [⟨['n'], .text ['A'], ⟨none, some .selfReference⟩, some ['A'], false, false, false⟩,
    ⟨['x'], .text ['v'], ⟨none, some (.expression "$B.x".toList)⟩, some ['A'], false, false,
      false⟩]⟩

/-- The heir has the parent, its own name in the first text, and the parent's value in the
second. -/
theorem state_of_failed_call_sender :
    let left := (new ['C']).call (.inherit sender true)
    ∃ f, left.result = .error f ∧ left.state ≠ new ['C'] ∧ left.state.parents = [['A']] ∧
      HalfMerged (new ['C']) sender true sender.only f left.state ∧
      left.state.properties.map Property.value = [.text ['C'], .text ['v']] := by
  have hresult : ((new ['C']).call (.inherit sender true)).result.toBool = false := by
    decide +kernel
  cases h : ((new ['C']).call (.inherit sender true)).result with
  | ok u =>
    rw [h] at hresult
    cases hresult
  | error f =>
    obtain ⟨hkept, hmerge⟩ := state_of_failed_call h
    obtain ⟨-, hparents, hmerged⟩ := hmerge sender true sender.only rfl
    exact ⟨f, h, fun hs => Bool.noConfusion (hkept.1 hs), hparents, hmerged,
      by with_unfolding_all rfl⟩

/-- A key that two parents share stands twice when it may not. -/
example :
    let a := (new ['A']).set ['x'] (.bool true)
    let b := (new ['B']).set ['x'] (.bool false)
    let c := ((new ['C']).call (.inherit a false)).state
    (c.call (.inherit b false)).state.keys = [['x'], ['x']] := by
  decide +kernel

end Lineage.Section
