import Lineage.Proofs.Property.Reread
/-!
# Assigned properties

Assigning a value to a property drops its derivation and keeps its comment. The line that it is
written on declares the value again (`property_of_assigned`), unless the literal is taken for
something else, or the comment has it evaluated to something else.
-/
namespace Lineage

open Source Construction

/-- A property whose key and note are as a line can state them. -/
structure Property.Told (p : Property) : Prop where
  key : ReadableKey p.key
  note : p.note.Printable

/-- A value that is told from its literal, in which nothing is taken for a comment, a reference or
a group. -/
structure Value.Storable (v : Value) : Prop where
  readable : v.Readable
  text_chars : ∀ t, v = .text t →
    ∀ c ∈ t, Note.isMark c = false ∧ c ≠ '\n' ∧ c ≠ '$' ∧ c ≠ '('

/-- The comment of the note leaves the value alone: where the comment has it evaluated, a text is
its own result. Words and numbers always are. -/
def Note.Keeps (a : Note) (v : Value) : Prop :=
  ∀ c t, a.comment = some c → c.hasWord Reference.expressionWord = true ∨ '{' ∈ c →
    v = .text t → Expression.evaluate t = .ok t

/-- A property without derivation whose line declares its value. -/
structure Property.Assigned (p : Property) : Prop where
  value : p.value.Storable
  note : p.note.Keeps p.value
  derivation : p.note.derivation = none

/-- What is read of the line of the property can be declared, wherever the line stands. -/
def Property.Restated (p : Property) : Prop :=
  ∀ m M, ∃ q, property p.declaration.reread m M = .ok q

/-- A property that is settled, but for the name of an heir in a value that embeds it. -/
inductive Property.Steady (p : Property) : Prop where
  | settled : p.Settled → Steady p
  | renamed : p.inherited = true → p.derivation = some .selfReference → p.note.Quiet → Steady p

namespace Property

variable {p : Property}

/-! ## Lines that are told -/

theorem Told.printable (h : p.Told) (ht : p.value.literal.trim = p.value.literal)
    (hc : ∀ c ∈ p.value.literal, Note.isMark c = false ∧ c ≠ '\n') : p.Printable where
  key_ne := h.key.ne
  key_trim := h.key.trim
  key_head := h.key.head
  key_chars := h.key.chars
  literal_trim := ht
  literal_chars := hc
  note_trim := Note.trim_render h.note
  note_head := Note.head_render h.note
  note_line := Note.newline_not_mem_render h.note

/-- The line has the key of the property, whatever its literal is taken for. -/
theorem Told.legible (h : p.Told) (hl : p.value.literal.OneLine) : p.declaration.Legible where
  key := h.key
  line := by
    refine isLine_print (fun hm => (h.key.chars _ hm).2 rfl) hl.line hl.trim fun c hc => ?_
    obtain ⟨-, rfl⟩ : p.note.isEmpty = false ∧ p.note.render = c := by
      simpa [declaration] using hc
    exact ⟨Note.newline_not_mem_render h.note, Note.trim_render h.note⟩

theorem Told.setValue (h : p.Told) (v : Value) : (p.setValue v).Told :=
  ⟨h.key, h.note.comment_trim, h.note.comment_head, h.note.comment_line, nofun⟩

theorem told_new {key : Text} (h : ReadableKey key) (v : Value) (owner : Text) :
    ((Property.new key v .blank).attach owner).Told :=
  ⟨h, nofun, nofun, nofun, nofun⟩

theorem Assigned.literal_chars (h : p.Assigned) :
    ∀ c ∈ p.value.literal, Note.isMark c = false ∧ c ≠ '\n' ∧ c ≠ '$' ∧ c ≠ '(' :=
  literal_chars_of_text h.value.readable h.value.text_chars

theorem Assigned.printable (h : p.Assigned) (ht : p.Told) : p.Printable :=
  ht.printable (Value.trim_literal h.value.readable) fun c hc =>
    ⟨(h.literal_chars c hc).1, (h.literal_chars c hc).2.1⟩

/-- Where the line is evaluated, the literal is its own result. -/
theorem Assigned.evaluate (h : p.Assigned)
    (he : isEvaluated p.declaration p.rereadResolution = true) :
    Expression.evaluate p.value.literal = .ok p.value.literal := by
  cases hv : p.value with
  | bool b =>
    apply Expression.evaluate_of_isResult
    exact Value.isResult_literal (hv ▸ h.value.readable) nofun
  | number x =>
    apply Expression.evaluate_of_isResult
    exact Value.isResult_literal (hv ▸ h.value.readable) nofun
  | text t =>
    by_cases hforces : ∃ c, p.note.comment = some c ∧
        (c.hasWord Reference.expressionWord = true ∨ '{' ∈ c)
    · obtain ⟨c, hc, hf⟩ := hforces
      exact h.note c t hc hf hv
    · -- nothing has the line evaluated
      have hq : p.note.Quiet := by
        refine ⟨?_, fun c hc hi => hforces ⟨c, hc, .inl ?_⟩, fun c hc hm =>
          hforces ⟨c, hc, .inr hm⟩⟩
        · rw [Note.isExpression, h.derivation]
          rfl
        · exact (Text.hasWord_iff Note.word_ne_nil).2 hi
      rw [isEvaluated_of_quiet (fun hm => (h.literal_chars _ hm).2.2.2 rfl) hq] at he
      cases he

/-- The line of an assigned property declares its value, wherever it stands. -/
theorem property_of_assigned (h : p.Assigned) (ht : p.Told) (m : Section) (M : Lookup) :
    property p.declaration.reread m M = .ok p.reread := by
  rw [reread_of_readable (h.printable ht).declaration]
  exact property_reread_of (fun hm => (h.literal_chars _ hm).2.2.1 rfl) h.evaluate m M

end Property

end Lineage
