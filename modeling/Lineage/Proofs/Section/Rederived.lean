import Lineage.Proofs.Lists
import Lineage.Section.Merge
/-!
# Deriving a property again

What an heir took from a parent and left as it was is given the value that it has in the heir
(`copyValue`); everything else stays. Three lemmas say when (`rederive_of_none`,
`rederive_of_difference`, `rederive_of_copy`), and what is said of derivations here follows from
them. The value in an heir depends on the heir by its name and by the value of an expression only
(`copyValue_congr`).
-/
namespace Lineage

/-- The value with `name'` in every place of `name`, if it is a text. -/
def Value.renamed (name name' : Text) : Value → Value
  | .text t => .text (t.replaceAll name name')
  | v => v

namespace Section

variable {s s' t : Section} {L M : Lookup} {p : Property} {parent key raw : Text} {v : Value}
  {f : Fault}

/-! ## Values in an heir -/

/-- The value of an expression is resolved, evaluated and read as a literal. -/
theorem valueOfExpression_ok_iff {note : Note} : s.valueOfExpression raw note L = .ok v ↔
    ∃ r a, Reference.resolve raw note s L = .ok r ∧ Expression.evaluate r.text = .ok a ∧
      v = .infer a := by
  unfold valueOfExpression
  cases Reference.resolve raw note s L with
  | error c => simp
  | ok r =>
    cases h : Expression.evaluate r.text with
    | error e => simp [h]
    | ok a => simp [h, eq_comm]

/-- The value that a property of the section named `parent` has in the heir `s`: the same without a
derivation, with the heir's name in each place of the parent's if it embeds its owner's name, or
what the expression yields in the heir as it is. -/
def copyValue (s : Section) (parent : Text) (L : Lookup) (p : Property) : Except Fault Value :=
  match p.derivation with
  | none => .ok p.value
  | some .selfReference => .ok (p.value.renamed parent s.name)
  | some (.expression raw) => s.valueOfExpression raw p.note L

/-- Heirs of one name give a property the same value, or the same fault, if its expression has the
same value in both. -/
theorem copyValue_congr (hn : t.name = s.name)
    (h : ∀ raw, p.derivation = some (.expression raw) →
      t.valueOfExpression raw p.note M = s.valueOfExpression raw p.note L) :
    t.copyValue parent M p = s.copyValue parent L p := by
  unfold copyValue
  cases hd : p.derivation with
  | none => rfl
  | some d =>
    cases d with
    | selfReference => rw [hn]
    | expression raw => exact h raw hd

/-- A value is passed on where the value of its expression is. -/
theorem copyValue_of_ok (h : s.copyValue parent L p = .ok v) (hn : t.name = s.name)
    (hv : ∀ raw, p.derivation = some (.expression raw) →
      s.valueOfExpression raw p.note L = .ok v → t.valueOfExpression raw p.note M = .ok v) :
    t.copyValue parent M p = .ok v := by
  rw [← h]
  refine copyValue_congr hn fun raw hd => ?_
  unfold copyValue at h
  rw [hd] at h
  exact (hv raw hd h).trans h.symm

/-! ## One property -/

theorem modify_eq_self {f : Property → Property} (h : s.get? key = some p) (hf : f p = p) :
    s.modify key f = s := by
  rw [modify, modifyFirst_eq_self h hf]

theorem rederive_of_none (h : s.get? key = none) : s.rederive parent key L = .ok s := by
  rw [rederive, h]

/-- What is local or was changed stays. -/
theorem rederive_of_difference (h : s.get? key = some p) (hp : p.isDifference = true) :
    s.rederive parent key L = .ok s := by
  have hnone : s.rederived? p parent L = .ok none := if_pos hp
  simp only [rederive, h, hnone]

/-- What was taken from the parent is given its value in the heir. -/
theorem rederive_of_copy (h : s.get? key = some p) (hp : p.isDifference = false) :
    s.rederive parent key L =
      (s.copyValue parent L p).map fun v => s.modify key (·.setDerived v) := by
  have hkeep : s.modify key (·.setDerived p.value) = s := modify_eq_self h rfl
  have hcopy : ¬ (!p.inherited || p.modified) = true := ne_true_of_eq_false hp
  simp only [rederive, h, rederived?, if_neg hcopy, copyValue]
  cases p.derivation with
  | none => exact congrArg Except.ok hkeep.symm
  | some d =>
    cases d with
    | selfReference =>
      -- only a text is written anew
      cases hv : p.value with
      | text t => rfl
      | bool b =>
        rw [hv] at hkeep
        exact congrArg Except.ok hkeep.symm
      | number x =>
        rw [hv] at hkeep
        exact congrArg Except.ok hkeep.symm
    | expression raw =>
      dsimp only
      cases s.valueOfExpression raw p.note L <;> rfl

/-- Deriving a key again gives a copy its value in the heir, or changes nothing. -/
theorem rederive_ok_iff : s.rederive parent key L = .ok s' ↔
    ((∀ p, s.get? key = some p → p.isDifference = true) ∧ s' = s) ∨
      ∃ p v, s.get? key = some p ∧ p.isDifference = false ∧ s.copyValue parent L p = .ok v ∧
        s' = s.modify key (·.setDerived v) := by
  constructor
  · intro h
    cases hs : s.get? key with
    | none =>
      rw [rederive_of_none hs] at h
      exact .inl ⟨nofun, (Except.ok.inj h).symm⟩
    | some p =>
      cases hp : p.isDifference with
      | true =>
        rw [rederive_of_difference hs hp] at h
        exact .inl ⟨fun q hq => Option.some.inj hq ▸ hp, (Except.ok.inj h).symm⟩
      | false =>
        rw [rederive_of_copy hs hp] at h
        cases hv : s.copyValue parent L p with
        | error f =>
          rw [hv] at h
          cases h
        | ok v =>
          rw [hv] at h
          exact .inr ⟨p, v, rfl, hp, hv, (Except.ok.inj h).symm⟩
  · rintro (⟨hall, rfl⟩ | ⟨p, v, hs, hp, hv, rfl⟩)
    · cases hs : s'.get? key with
      | none => exact rederive_of_none hs
      | some p => exact rederive_of_difference hs (hall p hs)
    · rw [rederive_of_copy hs hp, hv]
      rfl

/-- Deriving a key again fails if its property is a copy that has no value in the heir. -/
theorem copyValue_of_rederive_error (h : s.rederive parent key L = .error f) :
    ∃ p, s.get? key = some p ∧ p.isDifference = false ∧ s.copyValue parent L p = .error f := by
  cases hs : s.get? key with
  | none =>
    rw [rederive_of_none hs] at h
    cases h
  | some p =>
    cases hp : p.isDifference with
    | true =>
      rw [rederive_of_difference hs hp] at h
      cases h
    | false =>
      rw [rederive_of_copy hs hp] at h
      cases hv : s.copyValue parent L p with
      | ok v =>
        rw [hv] at h
        cases h
      | error e =>
        rw [hv] at h
        cases h
        exact ⟨p, rfl, hp, hv⟩

/-- A key is derived alike by a lookup that gives copies the values that they had. -/
theorem rederive_of_ok (h : s.rederive parent key L = .ok s')
    (hv : ∀ p v, s.get? key = some p → s.copyValue parent L p = .ok v →
      s.copyValue parent M p = .ok v) : s.rederive parent key M = .ok s' := by
  rcases rederive_ok_iff.1 h with hkept | ⟨p, v, hp, hd, hval, rfl⟩
  · exact rederive_ok_iff.2 (.inl hkept)
  · exact rederive_ok_iff.2 (.inr ⟨p, v, hp, hd, hv p v hp hval, rfl⟩)

end Section

end Lineage
