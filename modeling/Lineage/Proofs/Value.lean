import Lineage.Proofs.Expression.Result
import Lineage.Value
/-!
# Literals read back

The literal of a readable value is read as a value of the same kind that is equal to it and is
written alike (`alike_infer`), and every value that was read is readable (`readable_infer`).
-/
namespace Lineage.Value

/-- Values that no reader of literals can tell apart. -/
structure Alike (v w : Value) : Prop where
  equal : (v == w) = true
  kind : v.kind = w.kind
  literal : v.literal = w.literal

/-- A value that is told from its literal. -/
structure Readable (v : Value) : Prop where
  number : ∀ x, v = .number x → x.isFinite = true
  text_trim : ∀ t, v = .text t → t.trim = t
  text_number : ∀ t, v = .text t → Number.parse? t = none
  text_word : ∀ t, v = .text t → t ∉ [['+'], ['-'], trueWord, falseWord]

variable {v w : Value} {t : Text}

theorem readable_bool (b : Bool) : (bool b).Readable := by
  refine ⟨?_, ?_, ?_, ?_⟩ <;> rintro _ ⟨⟩

theorem readable_number {x : Float} (h : x.isFinite = true) : (number x).Readable := by
  refine ⟨?_, ?_, ?_, ?_⟩ <;> rintro _ ⟨⟩
  exact h

theorem infer_of_number {x : Float} (h : Number.parse? t.trim = some x) : infer t = number x := by
  unfold infer
  rw [h]

theorem parse?_of_infer {x : Float} (h : infer t = number x) : Number.parse? t.trim = some x := by
  unfold infer at h
  split at h
  · next y hy =>
    cases h
    exact hy
  · split at h
    · cases h
    · split at h <;> cases h

theorem infer_of_text (ht : t.trim = t) (hn : Number.parse? t = none)
    (hw : t ∉ [['+'], ['-'], trueWord, falseWord]) : infer t = text t := by
  simp only [List.mem_cons, List.not_mem_nil, or_false, not_or] at hw
  unfold infer
  rw [ht, hn]
  simp only
  rw [if_neg (by simp [hw]), if_neg (by simp [hw])]

theorem finite_of_parse? {x : Float} (h : Number.parse? t = some x) : x.isFinite = true :=
  (Option.filter_eq_some_iff.1 h).2

/-- Every value that was read is told from its literal. -/
theorem readable_infer (t : Text) : (infer t).Readable := by
  cases hn : Number.parse? t.trim with
  | some x =>
    rw [infer_of_number hn]
    exact readable_number (finite_of_parse? hn)
  | none =>
    unfold infer
    rw [hn]
    simp only
    split
    · exact readable_bool true
    · split
      · exact readable_bool false
      · next h1 h2 =>
        refine ⟨?_, ?_, ?_, ?_⟩ <;> rintro _ ⟨⟩
        · exact Text.trim_trim t
        · exact hn
        · simp only [not_or] at h1 h2
          simp [h1, h2]

theorem alike_refl (h : v.Readable) : v.Alike v := by
  refine ⟨?_, rfl, rfl⟩
  cases v with
  | bool b => exact beq_self_eq_true b
  | number x => exact Number.beq_self (h.number x rfl)
  | text t => exact beq_self_eq_true t

/-- A literal is read as a value like the one it was written for. -/
theorem alike_infer (h : v.Readable) : (infer v.literal).Alike v := by
  cases v with
  | bool b => cases b <;> exact ⟨rfl, rfl, rfl⟩
  | number x =>
    obtain ⟨y, hy, he, hf⟩ := Number.parse?_format (h.number x rfl)
    have ht := Expression.trim_of_isPlain (Number.isPlain_format (h.number x rfl))
    rw [literal, infer_of_number (ht.symm ▸ hy)]
    exact ⟨he, rfl, hf⟩
  | text t =>
    rw [literal, infer_of_text (h.text_trim t rfl) (h.text_number t rfl) (h.text_word t rfl)]
    exact alike_refl h

/-- Only texts can be something else than their own results. -/
theorem isResult_literal (h : v.Readable) (ht : ∀ t, v ≠ text t) :
    Expression.IsResult v.literal := by
  cases v with
  | bool b => cases b <;> exact ⟨rfl, by decide, by decide, .inr rfl⟩
  | number x => exact Expression.isResult_of_isPlain (Number.isPlain_format (h.number x rfl))
  | text t => exact absurd rfl (ht t)

theorem trim_literal (h : v.Readable) : v.literal.trim = v.literal := by
  cases v with
  | text t => exact h.text_trim t rfl
  | bool b => exact (isResult_literal h nofun).trim
  | number x => exact (isResult_literal h nofun).trim

end Lineage.Value
