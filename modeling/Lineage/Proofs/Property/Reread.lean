import Lineage.Proofs.Construction.OneLine
import Lineage.Proofs.Property.Quiet
import Lineage.Proofs.Property.Written
/-!
# Declared properties written and read again

The value of a line is a result, or its note forces nothing (`settled_of_property`). So where the
property is written on a line of its own, the literal is not changed when it is read again
(`property_reread`).
-/
namespace Lineage

open Source Construction

namespace Value

variable {t : Text}

theorem isResult_infer (h : Expression.IsResult t) : Expression.IsResult (infer t).literal := by
  have hr := readable_infer t
  cases hv : infer t with
  | bool b => exact isResult_literal (hv ▸ hr) (by simp)
  | number x => exact isResult_literal (hv ▸ hr) (by simp)
  | text u =>
    obtain rfl : t = u := by
      unfold infer at hv
      rw [h.trim] at hv
      split at hv
      · cases hv
      · split at hv
        · cases hv
        · split at hv
          · cases hv
          · exact Value.text.inj hv
    exact h

theorem paren_not_mem_infer (h : '(' ∉ t) : '(' ∉ (infer t).literal := by
  have hr := readable_infer t
  cases hv : infer t with
  | bool b => exact (isResult_literal (hv ▸ hr) (by simp)).opened
  | number x => exact (isResult_literal (hv ▸ hr) (by simp)).opened
  | text u =>
    unfold infer at hv
    split at hv
    · cases hv
    · split at hv
      · cases hv
      · split at hv
        · cases hv
        · cases hv
          exact fun hm => h (Text.mem_of_mem_trim hm)

end Value

namespace Property

/-- A property whose literal stays as it is when it is evaluated, or is not evaluated at all. -/
inductive Settled (p : Property) : Prop where
  | evaluated : Expression.IsResult p.value.literal → p.note.isExpression = true → Settled p
  | quiet : '(' ∉ p.value.literal → p.note.Quiet → Settled p

variable {p : Property} {s m : Section} {L M : Lookup} {d : Declaration}

theorem Settled.attach (h : p.Settled) (owner : Text) : (p.attach owner).Settled := by
  cases h with
  | evaluated hr hx => exact .evaluated hr hx
  | quiet ho hq => exact .quiet ho hq

/-- What a line declares is settled: a value that was evaluated is a result. -/
theorem settled_of_property (h : property d s L = .ok p) : p.Settled := by
  obtain ⟨r, -, hp⟩ := property_ok_iff.1 h
  split at hp
  · obtain ⟨t, ht, rfl⟩ := hp
    refine .evaluated (Value.isResult_infer (Expression.isResult_of_evaluate ht)) ?_
    change (derivationOf d r).any Derivation.isExpression = true
    unfold derivationOf
    split
    · assumption
    · rfl
  · next hev =>
    subst hp
    simp only [isEvaluated, Bool.or_eq_true, not_or, Bool.not_eq_true] at hev
    obtain ⟨⟨hd, ht⟩, hf⟩ := hev
    have hq := Note.quiet_of_not_forces hf
    exact .quiet (Value.paren_not_mem_infer (by simpa using ht)) ⟨hd, hq.word, hq.open_⟩

theorem readable_of_property (h : property d s L = .ok p) : p.value.Readable := by
  obtain ⟨r, -, hp⟩ := property_ok_iff.1 h
  split at hp
  · obtain ⟨t, -, rfl⟩ := hp
    exact Value.readable_infer t
  · subst hp
    exact Value.readable_infer r.text

theorem key_of_property (h : property d s L = .ok p) : p.key = d.key := by
  obtain ⟨r, -, hp⟩ := property_ok_iff.1 h
  split at hp
  · obtain ⟨t, -, rfl⟩ := hp
    rfl
  · subst hp
    rfl

/-- The property of a line is written on a line from which its parts are told. -/
theorem printable_of_property (hd : d.Readable) (h : property d s L = .ok p)
    (hmark : ∀ c ∈ p.value.literal, Note.isMark c = false) (hline : '\n' ∉ p.value.literal) :
    p.Printable := by
  have hk := key_of_property h
  have hn := printable_note h hd
  exact {
    key_ne := hk ▸ hd.key_ne
    key_trim := hk ▸ hd.key_trim
    key_head := hk ▸ hd.key_head
    key_chars := hk ▸ hd.key_chars
    literal_trim := Value.trim_literal (readable_of_property h)
    literal_chars := fun c hc => ⟨hmark c hc, fun he => hline (he ▸ hc)⟩
    note_trim := Note.trim_render hn
    note_head := Note.head_render hn
    note_line := Note.newline_not_mem_render hn }

/-! ## Reading again -/

/-- What the references of a written literal are replaced by: there are none. -/
def rereadResolution (p : Property) : Reference.Resolution :=
  ⟨p.value.literal, (Note.parse p.note.render).derivation⟩

/-- The note that the line of a property states. -/
def rereadNote (p : Property) : Note :=
  ⟨(Note.parse p.note.render).comment,
    if isEvaluated p.declaration p.rereadResolution then
      derivationOf p.declaration p.rereadResolution
    else (Note.parse p.note.render).derivation⟩

/-- The property that the line of a property declares. -/
def reread (p : Property) : Property := .new p.key (.infer p.value.literal) p.rereadNote

theorem isEvaluated_of_quiet (ho : '(' ∉ p.value.literal) (hq : p.note.Quiet) :
    isEvaluated p.declaration p.rereadResolution = false := by
  have hq' := Note.quiet_parse_render hq
  have hl : p.value.literal.contains '(' = false := by simpa using ho
  have hf : Reference.forcesEvaluation p.declaration.value (noteOf p.declaration) = false := by
    rw [noteOf_declaration, Note.forcesEvaluation_of_quiet hq']
    exact hl
  have hd : p.rereadResolution.derivation.any Derivation.isExpression = false := hq'.derivation
  have ht : p.rereadResolution.text.contains '(' = false := hl
  rw [isEvaluated, hf, hd, ht]
  rfl

/-- The line of a property declares it again, wherever it stands, unless it is evaluated to
something else. -/
theorem property_reread_of (hdollar : '$' ∉ p.value.literal)
    (he : isEvaluated p.declaration p.rereadResolution = true →
      Expression.evaluate p.value.literal = .ok p.value.literal) (m : Section) (M : Lookup) :
    property p.declaration m M = .ok p.reread := by
  have hr : (⟨p.declaration.value, (noteOf p.declaration).derivation⟩ : Reference.Resolution) =
      p.rereadResolution := by
    rw [noteOf_declaration]
    rfl
  have hdollar' : '$' ∉ p.declaration.value := hdollar
  rw [property_of_literal hdollar']
  · rw [hr, noteOf_declaration]
    rfl
  · rw [hr]
    exact he

/-- The line of a settled property declares it again, wherever it stands. -/
theorem property_reread (h : p.Settled) (hdollar : '$' ∉ p.value.literal) (m : Section)
    (M : Lookup) : property p.declaration m M = .ok p.reread := by
  refine property_reread_of hdollar (fun hev => ?_) m M
  cases h with
  | evaluated hres _ => exact Expression.evaluate_of_isResult hres
  | quiet ho hq =>
    rw [isEvaluated_of_quiet ho hq] at hev
    cases hev

/-- The derivation of a settled property is read again if the note is. -/
theorem derivation_reread (h : p.Settled)
    (hn : (Note.parse p.note.render).derivation = p.note.derivation) :
    p.reread.derivation = p.derivation := by
  change (if isEvaluated p.declaration p.rereadResolution then
    derivationOf p.declaration p.rereadResolution else _) = p.note.derivation
  cases h with
  | evaluated _ hx =>
    have hd : p.rereadResolution.derivation = p.note.derivation := hn
    have hx' : p.rereadResolution.derivation.any Derivation.isExpression = true := by
      rw [hd]
      exact hx
    have hev : isEvaluated p.declaration p.rereadResolution = true := by
      rw [isEvaluated, hx']
      rfl
    rw [if_pos hev, derivationOf, if_pos hx', hd]
  | quiet ho hq =>
    rw [isEvaluated_of_quiet ho hq, if_neg Bool.false_ne_true, hn]

theorem value_reread (h : p.value.Readable) (owner : Text) :
    (p.reread.attach owner).value.Alike p.value :=
  Value.alike_infer h

/-! ## Writable properties -/

/-- A writable property is settled. -/
theorem Writable.settled (h : p.Writable) : p.Settled := by
  cases hx : p.note.isExpression with
  | true =>
    refine .evaluated ?_ hx
    cases hv : p.value with
    | text t => exact Expression.isResult_of_evaluate (h.text_result t hv hx)
    | bool b => exact Value.isResult_literal (hv ▸ h.value) (by simp)
    | number x => exact Value.isResult_literal (hv ▸ h.value) (by simp)
  | false =>
    refine .quiet (fun hm => (h.literal_chars _ hm).2.2.2 rfl)
      ⟨hx, fun c hc hw => ?_, h.note.comment_open⟩
    -- the word would have noted an expression
    rw [h.comment_word c hc ((Text.hasWord_iff Note.word_ne_nil).2 hw)] at hx
    cases hx

/-- A writable property is declared again with its note. -/
theorem Writable.rereadNote_eq (h : p.Writable) : p.rereadNote = p.note := by
  have hn := Note.parse_render h.note
  have hc : p.rereadNote.comment = p.note.comment := by
    change (Note.parse p.note.render).comment = p.note.comment
    rw [hn]
  have hd : p.rereadNote.derivation = p.note.derivation :=
    derivation_reread h.settled (congrArg Note.derivation hn)
  calc p.rereadNote = ⟨p.rereadNote.comment, p.rereadNote.derivation⟩ := rfl
    _ = ⟨p.note.comment, p.note.derivation⟩ := by rw [hc, hd]
    _ = p.note := rfl

end Property

end Lineage
