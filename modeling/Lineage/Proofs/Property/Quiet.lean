import Lineage.Proofs.Property.Note
import Lineage.Reference
/-!
# Notes that force nothing

A note is quiet if it does not have a value evaluated. It is still quiet when it was written and
read again (`quiet_parse_render`).
-/
namespace Lineage

/-! ## Words -/

namespace Text

theorem hasWord_iff {t w : Text} (hw : w ≠ []) : t.hasWord w = true ↔ w <:+: t := by
  constructor
  · intro h
    obtain ⟨p, hp⟩ := Option.isSome_iff_exists.1 h
    exact ⟨p.1, p.2, (cutAt?_eq_some hp).symm⟩
  · intro h
    unfold hasWord
    induction t with
    | nil => exact absurd (List.infix_nil.1 h) hw
    | cons c t ih =>
      rw [cutAt?]
      split
      · rfl
      · next hp =>
        rcases List.infix_cons_iff.1 h with h | h
        · exact absurd (List.isPrefixOf_iff_prefix.2 h) hp
        · rw [Option.isSome_map]
          exact ih h

/-- A word does not reach over a place where words end. -/
theorem infix_of_boundary {w a b : Text} {f : Char → Bool} (hw : ∀ c ∈ w, f c = true)
    (hab : a.getLast?.any f = false ∨ b.head?.any f = false) (h : w <:+: a ++ b) :
    w <:+: a ∨ w <:+: b := by
  obtain ⟨s, t, h⟩ := h
  rw [List.append_assoc] at h
  rcases List.append_eq_append_iff.1 h with ⟨x, hax, hwt⟩ | ⟨y, -, hb⟩
  · rcases List.append_eq_append_iff.1 hwt with ⟨z, hxz, -⟩ | ⟨z, hwz, hbz⟩
    · exact .inl ⟨s, z, by rw [hax, hxz, List.append_assoc]⟩
    · -- the word ends behind the place
      rcases x.eq_nil_or_concat with hx | ⟨x', c, hx⟩
      · exact .inr ⟨[], t, by rw [hbz, hwz, hx]; rfl⟩
      · cases z with
        | nil => exact .inl ⟨s, [], by rw [hax, hwz, List.append_nil, List.append_nil]⟩
        | cons d z =>
          have hc : f c = true := hw c (by simp [hwz, hx])
          have hd : f d = true := hw d (by simp [hwz])
          rcases hab with ha | hb
          · simp [hax, hx, hc] at ha
          · simp [hbz, hd] at hb
  · exact .inr ⟨y, t, by rw [hb, List.append_assoc]⟩

end Text

namespace Note

open Reference

/-- A note that does not have a value evaluated. -/
structure Quiet (a : Note) : Prop where
  derivation : a.isExpression = false
  word : ∀ c, a.comment = some c → ¬ expressionWord <:+: c
  open_ : ∀ c, a.comment = some c → '{' ∉ c

variable {a : Note} {t : Text}

theorem word_ne_nil : expressionWord ≠ [] := List.cons_ne_nil _ _

theorem forcesEvaluation_of_quiet (h : a.Quiet) (raw : Text) :
    forcesEvaluation raw a = raw.contains '(' := by
  have hc : (a.comment.any fun c => c.hasWord expressionWord || c.contains '{') = false := by
    cases hc : a.comment with
    | none => rfl
    | some c =>
      have hw : c.hasWord expressionWord = false :=
        Bool.eq_false_iff.2 fun hw => h.word c hc ((Text.hasWord_iff word_ne_nil).1 hw)
      have ho : c.contains '{' = false := by simpa using h.open_ c hc
      rw [Option.any_some, hw, ho, Bool.or_false]
  rw [forcesEvaluation, hc, h.derivation, Bool.or_false, Bool.or_false]

theorem quiet_of_not_forces {raw : Text} (h : forcesEvaluation raw a = false) : a.Quiet := by
  unfold forcesEvaluation at h
  simp only [Bool.or_eq_false_iff] at h
  refine ⟨h.1.2, fun c hc hw => ?_, fun c hc ho => ?_⟩
  · have := h.2
    rw [hc, Option.any_some, (Text.hasWord_iff word_ne_nil).2 hw, Bool.true_or] at this
    cases this
  · have := h.2
    rw [hc, Option.any_some, Bool.or_eq_false_iff] at this
    simp [ho] at this

/-! ## Reading quiet texts -/

theorem infix_of_takeSelfTag {w r : Text} (hw : ∀ c ∈ w, isWordChar c = true)
    (h : takeSelfTag none t = some r) (hr : w <:+: r) : w <:+: t := by
  obtain ⟨a, b, rfl, rfl, ha⟩ := takeSelfTag_eq_some h
  rw [Option.or_none] at ha
  rcases Text.infix_of_boundary hw (.inl ha) hr with h | h
  · exact h.trans ⟨[], selfTag ++ b, by simp⟩
  · exact h.trans ⟨a ++ selfTag, [], by simp⟩

theorem isWordChar_of_mem_word {c : Char} (h : c ∈ expressionWord) : isWordChar c = true := by
  simp only [expressionWord, List.mem_cons, List.not_mem_nil, or_false] at h
  rcases h with rfl | rfl | rfl <;> rfl

/-- A text that forces nothing is read as a note that forces nothing. -/
theorem quiet_parse (hw : ¬ expressionWord <:+: t) (ho : '{' ∉ t) : (parse t).Quiet := by
  obtain ⟨a, b, -, -, htrim⟩ := Text.exists_trim t
  have ho' : '{' ∉ t.trim := fun hm => ho (Text.mem_of_mem_trim hm)
  have hw' : ¬ expressionWord <:+: t.trim := fun h => hw (htrim ▸ h.trans ⟨a, b, rfl⟩)
  have hquiet : ∀ (r : Text) d, ¬ expressionWord <:+: r → '{' ∉ r →
      Option.any Derivation.isExpression d = false → Quiet ⟨commentOf r, d⟩ := by
    intro r d hw ho hd
    refine ⟨hd, fun c hc hm => ?_, fun c hc hm => ?_⟩
    · rw [eq_of_commentOf hc] at hm
      exact hw (hm.trans (Text.trimEnd_isPrefix r).isInfix)
    · rw [eq_of_commentOf hc] at hm
      exact ho ((Text.trimEnd_isPrefix r).subset hm)
  have hb := braces?_of_not_mem ho'
  rw [← parse_trim]
  cases hs : takeSelfTag none t.trim with
  | none =>
    rw [(@parse_of_none _ [] (Text.trim_trim t) hb).1 hs]
    exact hquiet _ _ hw' ho' rfl
  | some r =>
    rw [(parse_of_none (Text.trim_trim t) hb).2 hs]
    refine hquiet r _ (fun h => ?_) (fun hm => ?_) rfl
    · exact hw' (infix_of_takeSelfTag (fun _ => isWordChar_of_mem_word) hs h)
    · obtain ⟨a, b, he, rfl, -⟩ := takeSelfTag_eq_some hs
      refine ho' (he ▸ ?_)
      simp only [List.mem_append] at hm ⊢
      exact hm.imp_left .inl

/-- A quiet note is printed without anything that forces evaluation. -/
theorem quiet_render (h : a.Quiet) : ¬ expressionWord <:+: a.render ∧ '{' ∉ a.render := by
  obtain ⟨comment, derivation⟩ := a
  have hspace : ¬ expressionWord <:+: ' ' :: selfTag := by decide
  have htag : ¬ expressionWord <:+: '#' :: selfTag := by decide
  rcases derivation with _ | _ | e
  · cases comment with
    | none => exact ⟨fun h => word_ne_nil (List.infix_nil.1 h), by simp [render]⟩
    | some c => exact ⟨h.word c rfl, h.open_ c rfl⟩
  · cases comment with
    | none => exact ⟨htag, by simp [render, selfTag]⟩
    | some c =>
      refine ⟨fun hm => ?_, ?_⟩
      · rcases Text.infix_of_boundary (fun _ => isWordChar_of_mem_word) (.inr rfl) hm with hm | hm
        · exact h.word c rfl hm
        · exact hspace hm
      · have := h.open_ c rfl
        simp [render, selfTag, this]
  · cases h.derivation

/-- A quiet note that was written is read as a quiet note. -/
theorem quiet_parse_render (h : a.Quiet) : (parse a.render).Quiet :=
  quiet_parse (quiet_render h).1 (quiet_render h).2

end Note

end Lineage
