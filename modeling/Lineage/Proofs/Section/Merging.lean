import Lineage.Proofs.Section.Call
import Lineage.Proofs.Section.Twins
/-!
# What a merge leaves

Under a key of its parent, an heir holds a copy of the parent's property (`get?_inheritWith`). The
copy has another owner and other marks, and a value of its own if the property has a derivation
(`Property.Passes`).

A merge keeps what the parent does not have, and puts these copies behind it. They are derived again
one after another, each in the heir as the ones before it left it (`rederive_midway`,
`rederiveAll_midway`). `merge_exact` says when a merge succeeds and what it leaves then.
-/
/-! ## Copies -/

namespace Lineage

/-- A property of the section named `parent` passes the value `v` on to its heir named `heir`. -/
def Property.Passes (L : Lookup) (parent heir : Text) (p : Property) (v : Value) : Prop :=
  match p.derivation with
  | none => v = p.value
  | some .selfReference => v = p.value.renamed parent heir
  | some (.expression raw) =>
    ∃ m : Section, m.name = heir ∧ m.valueOfExpression raw p.note L = .ok v

/-- The heir named `heir` holds `c` as its copy of the property `p` of its parent. -/
structure Property.Copied (L : Lookup) (parent heir : Text) (p c : Property) : Prop where
  unvalued : c.unvalued = (p.inheritedBy heir).unvalued
  value : p.Passes L parent heir c.value

theorem Property.Copied.note {L : Lookup} {parent heir : Text} {p c : Property}
    (h : p.Copied L parent heir c) : c.note = p.note :=
  (congrArg Property.note h.unvalued :)

namespace Section

variable {s s' parent : Section} {L : Lookup} {key name : Text} {p c q : Property}

theorem passes_of_copyValue {v : Value} (h : s.copyValue name L p = .ok v) :
    p.Passes L name s.name v := by
  unfold copyValue at h
  unfold Property.Passes
  cases hd : p.derivation with
  | none =>
    rw [hd] at h
    cases h
    rfl
  | some d =>
    rw [hd] at h
    cases d with
    | selfReference =>
      cases h
      rfl
    | expression raw => exact ⟨s, rfl, h⟩

/-- Deriving the copy of a property again gives it the value that it has in the heir. -/
theorem rederive_copy (h : s.get? key = some (p.inheritedBy s.name)) :
    s.rederive name key L = (s.copyValue name L p).map fun v => s.modify key (·.setDerived v) := by
  have hsame : s.copyValue name L (p.inheritedBy s.name) = s.copyValue name L p := rfl
  rw [rederive_of_copy h rfl, hsame]

/-- Deriving a copy again keeps it one. -/
theorem copied_of_rederive (h : s.rederive name key L = .ok s')
    (hs : s.get? key = some (p.inheritedBy s.name)) :
    ∃ c, s'.get? key = some c ∧ p.Copied L name s.name c := by
  rw [rederive_copy hs] at h
  cases hv : s.copyValue name L p with
  | error f =>
    rw [hv] at h
    cases h
  | ok v =>
    rw [hv] at h
    cases h
    have hget := get?_modify s key key v
    rw [if_pos rfl, hs] at hget
    exact ⟨_, hget, rfl, passes_of_copyValue hv⟩

/-- What a merge leaves under a key: a copy of the parent's property, or what was there before if
the parent has none. -/
theorem get?_inheritWith (h : (s.inheritWith parent true L).toExcept = .ok s') (hs : s.keys.Nodup)
    (hp : parent.keys.Nodup) (key : Text) :
    (parent.get? key = none → s'.get? key = s.get? key) ∧
      ∀ p, parent.get? key = some p →
        ∃ c, s'.get? key = some c ∧ p.Copied L parent.name s.name c := by
  obtain ⟨m, hm, hrun⟩ := inheritWith_ok_iff.1 h
  rw [validate_appendCopies hs hp] at hm
  cases hm
  constructor
  · intro hnone
    have hkey := get?_eq_none_iff.1 hnone
    rw [get?_rederiveAll_of_not_mem hrun, get?_merged_of_not_mem hkey]
    exact fun hk => hkey ((mem_derivedKeys hp).1 hk).mem_keys
  · intro p hsome
    have hmerged : (s.merged parent).get? key = some (p.inheritedBy s.name) := by
      rw [get?_merged, hsome]
      rfl
    by_cases hk : key ∈ parent.derivedKeys
    · obtain ⟨before, after, hsplit⟩ := List.append_of_mem hk
      have hn := nodup_derivedKeys hp
      rw [hsplit] at hrun hn
      obtain ⟨m, m', hst, hm, hkey⟩ := exists_stage hrun hn
      have hkb : key ∉ before := fun hb => by
        rw [List.nodup_append] at hn
        exact hn.2.2 key hb key (by simp) rfl
      have hname : m.name = s.name := hst.name
      rw [← hkey, ← hname]
      refine copied_of_rederive hm ?_
      rw [hst.rest key hkb, hmerged, hname]
    · rw [get?_rederiveAll_of_not_mem hrun hk, hmerged]
      rw [mem_derivedKeys hp, IsDerived, hsome, Option.any_some,
        Option.not_isSome_iff_eq_none] at hk
      refine ⟨_, rfl, rfl, ?_⟩
      rw [Property.Passes, hk]
      rfl

end Section

/-! ## The whole section -/

/-- The copy that the heir named `heir` holds of a property, with a value of its own. -/
def Property.copyWith (p : Property) (heir : Text) (v : Value) : Property :=
  ⟨p.key, v, p.note, some heir, true, false, true⟩

namespace Section

/-- The heir `s` of a parent, with its own properties whose keys the parent does not have, the
copies `done`, and copies of the properties `rest` that have the values of the parent yet. -/
def midway (s parent : Section) (done rest : List Property) : Section :=
  ⟨s.name, s.parents ++ [parent.name], s.properties.filter (! parent.hasKey ·.key) ++
    (done ++ rest.map (·.inheritedBy s.name))⟩

/-- Behind the copies `done`, the properties `rest` have the copies `copies`: each gets its value in
the heir in which those before it have theirs already. -/
inductive Recomputes (s parent : Section) (L : Lookup) :
    (done rest copies : List Property) → Prop
  | nil {done : List Property} : Recomputes s parent L done [] []
  | cons {done rest copies : List Property} {p : Property} {v : Value}
    (value : (s.midway parent done (p :: rest)).copyValue parent.name L p = .ok v)
    (later : Recomputes s parent L (done ++ [p.copyWith s.name v]) rest copies) :
    Recomputes s parent L done (p :: rest) (p.copyWith s.name v :: copies)

variable {s s' m parent : Section} {overwrite : Bool} {L : Lookup} {p : Property}
  {ps done rest : List Property}

/-! ## One copy -/

theorem find?_append_cons (h : p.key ∉ ps.map Property.key) (qs : List Property) :
    (ps ++ p :: qs).find? (·.key == p.key) = some p := by
  rw [List.find?_append, find?_eq_none_iff.2 h, Option.none_or, find?_cons_key, if_pos rfl]

theorem modifyFirst_append_cons (h : p.key ∉ ps.map Property.key) (f : Property → Property)
    (qs : List Property) : modifyFirst Property.key f p.key (ps ++ p :: qs) = ps ++ f p :: qs := by
  induction ps with
  | nil => rw [List.nil_append, modifyFirst, if_pos (beq_self_eq_true _), List.nil_append]
  | cons q ps ih =>
    rw [List.map_cons, List.mem_cons, not_or] at h
    rw [List.cons_append, modifyFirst, if_neg (by simpa using Ne.symm h.1), ih h.2,
      List.cons_append]

theorem midway_cons (s parent : Section) (done rest : List Property) (p : Property) :
    s.midway parent done (p :: rest) = s.midway parent (done ++ [p.inheritedBy s.name]) rest := by
  simp only [midway, List.map_cons, List.append_assoc, List.singleton_append]

/-- Deriving a copy again gives it its value in the heir, and leaves the others alone. -/
theorem rederive_midway (hp : p.key ∈ parent.keys) (hdone : p.key ∉ done.map Property.key) :
    (s.midway parent done (p :: rest)).rederive parent.name p.key L =
      ((s.midway parent done (p :: rest)).copyValue parent.name L p).map fun v =>
        s.midway parent (done ++ [p.copyWith s.name v]) rest := by
  have hbefore : (p.inheritedBy s.name).key ∉
      (s.properties.filter (! parent.hasKey ·.key) ++ done).map Property.key := by
    rw [List.map_append, List.mem_append, not_or]
    refine ⟨fun hm => ?_, hdone⟩
    obtain ⟨q, hq, he⟩ := List.mem_map.1 hm
    have hheld : parent.hasKey q.key = true := hasKey_iff.2 (he ▸ hp)
    simp [hheld] at hq
  have hprops : (s.midway parent done (p :: rest)).properties =
      (s.properties.filter (! parent.hasKey ·.key) ++ done) ++
        p.inheritedBy s.name :: rest.map (·.inheritedBy s.name) := by
    rw [midway, List.map_cons, List.append_assoc]
  have hget : (s.midway parent done (p :: rest)).get? p.key = some (p.inheritedBy s.name) := by
    rw [get?, hprops]
    exact find?_append_cons hbefore _
  have hset (v : Value) : (s.midway parent done (p :: rest)).modify p.key (·.setDerived v) =
      s.midway parent (done ++ [p.copyWith s.name v]) rest := by
    have hmodify := modifyFirst_append_cons hbefore (·.setDerived v)
      (rest.map (·.inheritedBy s.name))
    rw [modify, hprops]
    refine congrArg (Section.mk _ _) (hmodify.trans ?_)
    rw [List.append_assoc, List.append_assoc, List.singleton_append]
    rfl
  rw [rederive_copy hget]
  simp only [hset]

/-! ## All copies -/

theorem recomputes_cons_iff {copies : List Property} :
    Recomputes s parent L done (p :: rest) copies ↔
      ∃ v later, (s.midway parent done (p :: rest)).copyValue parent.name L p = .ok v ∧
        Recomputes s parent L (done ++ [p.copyWith s.name v]) rest later ∧
        copies = p.copyWith s.name v :: later := by
  constructor
  · rintro (_ | ⟨hv, hlater⟩)
    exact ⟨_, _, hv, hlater, rfl⟩
  · rintro ⟨v, later, hv, hlater, rfl⟩
    exact .cons hv hlater

/-- Only the copies of derived properties are derived again, but the others have their values. -/
theorem rederiveAll_cons_midway (hp : p.key ∈ parent.keys) (hdone : p.key ∉ done.map Property.key) :
    (rederiveAll parent.name L (((p :: rest).filter (·.derivation.isSome)).map Property.key)
        (s.midway parent done (p :: rest))).toExcept = .ok s' ↔
      ∃ v, (s.midway parent done (p :: rest)).copyValue parent.name L p = .ok v ∧
        (rederiveAll parent.name L ((rest.filter (·.derivation.isSome)).map Property.key)
          (s.midway parent (done ++ [p.copyWith s.name v]) rest)).toExcept = .ok s' := by
  rw [List.filter_cons]
  cases hd : p.derivation.isSome with
  | true =>
    rw [if_pos rfl, List.map_cons, rederiveAll_cons_ok_iff, rederive_midway hp hdone]
    cases (s.midway parent done (p :: rest)).copyValue parent.name L p with
    | error f => exact ⟨nofun, nofun⟩
    | ok v => simp [Except.map]
  | false =>
    have hnone : p.derivation = none := Option.not_isSome_iff_eq_none.1 (by simp [hd])
    have hvalue : (s.midway parent done (p :: rest)).copyValue parent.name L p = .ok p.value := by
      rw [copyValue, hnone]
    rw [if_neg Bool.false_ne_true, hvalue, midway_cons]
    refine ⟨fun h => ⟨p.value, rfl, h⟩, ?_⟩
    rintro ⟨_, ⟨⟩, h⟩
    exact h

/-- The copies are derived again in the order of the parent. -/
theorem rederiveAll_midway (hp : ∀ p ∈ rest, p.key ∈ parent.keys)
    (hn : ((done ++ rest).map Property.key).Nodup) :
    (rederiveAll parent.name L ((rest.filter (·.derivation.isSome)).map Property.key)
        (s.midway parent done rest)).toExcept = .ok s' ↔
      ∃ copies, Recomputes s parent L done rest copies ∧
        s' = s.midway parent (done ++ copies) [] := by
  induction rest generalizing done with
  | nil =>
    constructor
    · intro h
      cases h
      refine ⟨[], .nil, ?_⟩
      rw [List.append_nil]
      rfl
    · rintro ⟨copies, hcopies, rfl⟩
      cases hcopies
      rw [List.append_nil]
      rfl
  | cons p rest ih =>
    have hdone : p.key ∉ done.map Property.key := by
      rw [List.map_append, List.map_cons, List.nodup_append] at hn
      exact fun hm => hn.2.2 _ hm _ List.mem_cons_self rfl
    have hnext (v : Value) := @ih (done ++ [p.copyWith s.name v])
      (fun q hq => hp q (List.mem_cons_of_mem p hq)) (by
        simp only [List.append_assoc, List.map_append, List.singleton_append, List.map_cons] at hn ⊢
        exact hn)
    rw [rederiveAll_cons_midway (hp p List.mem_cons_self) hdone]
    constructor
    · rintro ⟨v, hv, h⟩
      obtain ⟨copies, hcopies, rfl⟩ := (hnext v).1 h
      exact ⟨_, .cons hv hcopies, by rw [List.append_assoc, List.singleton_append]⟩
    · rintro ⟨copies, hcopies, rfl⟩
      obtain ⟨v, later, hv, hlater, rfl⟩ := recomputes_cons_iff.1 hcopies
      refine ⟨v, hv, (hnext v).2 ⟨later, hlater, ?_⟩⟩
      rw [List.append_assoc, List.singleton_append]

/-! ## The merge -/

theorem merged_eq_midway (s parent : Section) :
    s.merged parent = s.midway parent [] parent.properties := by
  have hkey (q : Property) : (! (parent.properties.map (·.inheritedBy s.name)).any
      (·.key == q.key)) = ! parent.hasKey q.key := by
    rw [any_key_eq, map_key_inheritedBy, Bool.not_inj_iff, Bool.eq_iff_iff, decide_eq_true_eq,
      hasKey_iff, keys]
  simp only [merged, overlay, midway, hkey, List.nil_append]

/-- Without permission, an heir may take only keys that it does not have. -/
theorem validate_appendCopies_ok_iff (hs : s.keys.Nodup) (hp : parent.keys.Nodup) :
    (s.appendCopies parent).validate overwrite = .ok m ↔
      (overwrite = false → ∀ key ∈ s.keys, key ∉ parent.keys) ∧ m = s.merged parent := by
  have hkeys : (s.appendCopies parent).keys = s.keys ++ parent.keys := by
    rw [keys, appendCopies, List.map_append, map_key_inheritedBy]
    rfl
  have hnodup : (s.appendCopies parent).keys.Nodup ↔ ∀ key ∈ s.keys, key ∉ parent.keys := by
    rw [hkeys, List.nodup_append]
    constructor
    · intro h key hk hk'
      exact h.2.2 key hk key hk' rfl
    · intro h
      refine ⟨hs, hp, ?_⟩
      rintro key hk _ hk' rfl
      exact h key hk hk'
  have hmerged : s.merged parent = { s.appendCopies parent with
      properties := keepLast Property.key (s.appendCopies parent).properties } :=
    validate_ok (validate_appendCopies hs hp)
  rw [validate_ok_iff, hnodup, hmerged]
  cases overwrite <;> simp

/-- A merge succeeds if its validation does and all copies get their values. -/
theorem inheritWith_ok_iff_recomputes (hs : s.keys.Nodup) (hp : parent.keys.Nodup) :
    (s.inheritWith parent overwrite L).toExcept = .ok s' ↔
      (overwrite = false → ∀ key ∈ s.keys, key ∉ parent.keys) ∧
      ∃ copies, Recomputes s parent L [] parent.properties copies ∧
        s' = s.midway parent copies [] := by
  have hrun := @rederiveAll_midway s s' parent L [] parent.properties
    (fun p hm => List.mem_map_of_mem hm) hp
  rw [← merged_eq_midway] at hrun
  rw [inheritWith_ok_iff]
  constructor
  · rintro ⟨m, hm, h⟩
    obtain ⟨ho, rfl⟩ := (validate_appendCopies_ok_iff hs hp).1 hm
    exact ⟨ho, hrun.1 h⟩
  · rintro ⟨ho, h⟩
    exact ⟨_, (validate_appendCopies_ok_iff hs hp).2 ⟨ho, rfl⟩, hrun.2 h⟩

/-- A merge succeeds exactly if it may replace or no key is taken, and every copy can be given its
value in the heir, in the order of the parent. It leaves the parent noted, the properties whose keys
the parent does not have as they were, and the copies behind them. -/
theorem merge_exact (hs : s.keys.Nodup) (hp : parent.keys.Nodup) :
    (s.inheritWith parent overwrite L).toExcept = .ok s' ↔
      (overwrite = false → ∀ key ∈ s.keys, key ∉ parent.keys) ∧
      ∃ copies, Recomputes s parent L [] parent.properties copies ∧
        s' = ⟨s.name, s.parents ++ [parent.name],
          s.properties.filter (! parent.hasKey ·.key) ++ copies⟩ := by
  have hmidway (copies : List Property) : s.midway parent copies [] = ⟨s.name,
      s.parents ++ [parent.name], s.properties.filter (! parent.hasKey ·.key) ++ copies⟩ := by
    simp only [midway, List.map_nil, List.append_nil]
  rw [inheritWith_ok_iff_recomputes hs hp]
  simp only [hmidway]

/-- A section whose label is read off its title, which is its name. -/
def titled : Section :=
  ⟨['U'], [], [⟨"title".toList, .text ['U'], ⟨none, some .selfReference⟩, some ['U'], false, false,
    false⟩, ⟨"label".toList, .text ['U'], ⟨none, some (.expression "$title".toList)⟩, some ['U'],
    false, true, false⟩, ⟨"brave".toList, .bool true, .blank, some ['U'], false, false, false⟩]⟩

/-- An heir with a label and another property of its own. -/
def retitled : Section :=
  ⟨['K'], [], [⟨"label".toList, .bool false, .blank, some ['K'], false, false, false⟩,
    ⟨"mount".toList, .bool true, .blank, some ['K'], false, false, false⟩]⟩

/-- The label of the heir goes, and the copy of the parent's is read off the new title. Without
permission the merge fails. -/
theorem merge_exact_retitled : retitled.keys.Nodup ∧ titled.keys.Nodup ∧
    (∃ copies, Recomputes retitled titled titled.only [] titled.properties copies ∧
      copies.map Property.value = [.text ['K'], .text ['K'], .bool true] ∧
      (retitled.inherit titled true).toExcept = .ok ⟨['K'], [['U']],
        ⟨"mount".toList, .bool true, .blank, some ['K'], false, false, false⟩ :: copies⟩) ∧
    ∀ s', (retitled.inherit titled false).toExcept ≠ .ok s' := by
  have hs : retitled.keys.Nodup := by decide
  have hp : titled.keys.Nodup := by decide
  have hvalues : (retitled.inherit titled true).state.properties.tail.map Property.value =
      [.text ['K'], .text ['K'], .bool true] := by
    with_unfolding_all rfl
  have h : (retitled.inherit titled true).toExcept = .ok (retitled.inherit titled true).state := by
    with_unfolding_all rfl
  obtain ⟨-, copies, hcopies, hstate⟩ := (merge_exact hs hp).1 h
  rw [hstate] at hvalues h
  refine ⟨hs, hp, ⟨copies, hcopies, hvalues, h⟩, fun s' h' => ?_⟩
  have htaken := ((merge_exact hs hp).1 h').1 rfl "label".toList (by decide)
  exact htaken (by decide)

end Section

end Lineage
