import Lineage.Document.Stored
import Lineage.Proofs.Construction.Lines
import Lineage.Proofs.Property.Note
import Lineage.Proofs.Source.Printing
import Lineage.Proofs.Value
/-!
# Written properties and sections read back

The line of a property is that of a declaration (`render_eq_print`). A literal without references
is declared as it stands, unless it is evaluated (`property_of_literal`). The text of a document is
that of the blocks which its sections are written as (`renderSections_eq_print`), so it is read as
these blocks (`ofText_renderSections`).
-/
namespace Lineage.Property

open Source

/-- The line of a property, as it will be read. -/
def declaration (p : Property) : Declaration :=
  ⟨p.key, p.value.literal, if p.note.isEmpty then none else some p.note.render, 0⟩

/-- A property whose line has the parts that it was written from. -/
structure Printable (p : Property) : Prop where
  key_ne : p.key ≠ []
  key_trim : p.key.trim = p.key
  key_head : ∀ c, p.key.head? = some c → c ≠ '[' ∧ Note.isMark c = false
  key_chars : ∀ c ∈ p.key, c ≠ '=' ∧ c ≠ '\n'
  literal_trim : p.value.literal.trim = p.value.literal
  literal_chars : ∀ c ∈ p.value.literal, Note.isMark c = false ∧ c ≠ '\n'
  note_trim : p.note.render.trim = p.note.render
  note_head : p.note.isEmpty = false → ∃ m r, p.note.render = m :: r ∧ Note.isMark m = true
  note_line : '\n' ∉ p.note.render

/-- A property that is told from its line. -/
structure Writable (p : Property) : Prop where
  key_ne : p.key ≠ []
  key_trim : p.key.trim = p.key
  key_head : ∀ c, p.key.head? = some c → c ≠ '[' ∧ Note.isMark c = false
  key_chars : ∀ c ∈ p.key, c ≠ '=' ∧ c ≠ '\n'
  value : p.value.Readable
  text_chars : ∀ t, p.value = .text t →
    ∀ c ∈ t, Note.isMark c = false ∧ c ≠ '\n' ∧ c ≠ '$' ∧ c ≠ '('
  note : p.note.Writable
  /-- The word would have the value evaluated, and an expression noted. -/
  comment_word : ∀ c, p.note.comment = some c → c.hasWord Reference.expressionWord = true →
    p.note.isExpression = true
  text_result : ∀ t, p.value = .text t → p.note.isExpression = true →
    Expression.evaluate t = .ok t

variable {p : Property} {s : Section} {L : Lookup}

theorem render_eq_print (p : Property) : p.render = p.declaration.print := by
  unfold render Declaration.print Declaration.printRest declaration
  cases p.note.isEmpty <;> simp

/-- A printable property is a readable declaration. -/
theorem Printable.declaration (h : p.Printable) : p.declaration.Readable := by
  have hc : ∀ c, p.declaration.comment = some c → p.note.isEmpty = false ∧ p.note.render = c := by
    intro c hc
    simpa [Property.declaration] using hc
  refine ⟨h.key_ne, h.key_trim, h.key_head, h.key_chars, h.literal_trim, h.literal_chars,
    ?_, ?_, ?_⟩
  · rintro c hc'
    obtain ⟨-, rfl⟩ := hc c hc'
    exact h.note_trim
  · rintro c hc'
    obtain ⟨hne, rfl⟩ := hc c hc'
    exact h.note_head hne
  · rintro c hc'
    obtain ⟨-, rfl⟩ := hc c hc'
    exact h.note_line

theorem literal_chars_of_isNumeral {c : Char} (h : Expression.IsNumeral c) :
    Note.isMark c = false ∧ c ≠ '\n' ∧ c ≠ '$' ∧ c ≠ '(' := by
  refine ⟨Bool.eq_false_iff.2 fun hm => ?_, ?_, ?_, ?_⟩
  · simp only [Note.isMark, Bool.or_eq_true, beq_iff_eq] at hm
    rcases hm with rfl | rfl <;> exact absurd h (by simp only [Expression.IsNumeral]; decide)
  all_goals
    rintro rfl
    exact absurd h (by simp only [Expression.IsNumeral]; decide)

/-- Only texts can hold what a line or an expression would take for its own. -/
theorem literal_chars_of_text {v : Value} (hv : v.Readable)
    (ht : ∀ t, v = .text t → ∀ c ∈ t, Note.isMark c = false ∧ c ≠ '\n' ∧ c ≠ '$' ∧ c ≠ '(') :
    ∀ c ∈ v.literal, Note.isMark c = false ∧ c ≠ '\n' ∧ c ≠ '$' ∧ c ≠ '(' := by
  cases v with
  | bool b => cases b <;> simp [Value.literal, Value.trueWord, Value.falseWord, Note.isMark]
  | number x =>
    have hx := hv.number x rfl
    exact fun c hc =>
      literal_chars_of_isNumeral (Expression.isNumeral_of_isPlain (Number.isPlain_format hx) hc)
  | text t => exact ht t rfl

theorem Writable.literal_chars (h : p.Writable) :
    ∀ c ∈ p.value.literal, Note.isMark c = false ∧ c ≠ '\n' ∧ c ≠ '$' ∧ c ≠ '(' :=
  literal_chars_of_text h.value h.text_chars

theorem Writable.printable (h : p.Writable) : p.Printable where
  key_ne := h.key_ne
  key_trim := h.key_trim
  key_head := h.key_head
  key_chars := h.key_chars
  literal_trim := Value.trim_literal h.value
  literal_chars := fun c hc => ⟨(h.literal_chars c hc).1, (h.literal_chars c hc).2.1⟩
  note_trim := Note.trim_render h.note.toPrintable
  note_head := Note.head_render h.note.toPrintable
  note_line := Note.newline_not_mem_render h.note.toPrintable

/-! ## What a line declares -/

open Construction

/-- A literal without tokens is its own property, unless it is evaluated to something else. -/
theorem property_of_literal {d : Declaration} (h : '$' ∉ d.value)
    (he : isEvaluated d ⟨d.value, (noteOf d).derivation⟩ = true →
      Expression.evaluate d.value = .ok d.value) :
    property d s L = .ok (.new d.key (.infer d.value) ⟨(noteOf d).comment,
      if isEvaluated d ⟨d.value, (noteOf d).derivation⟩ then
        derivationOf d ⟨d.value, (noteOf d).derivation⟩ else (noteOf d).derivation⟩) := by
  refine property_ok_iff.2 ⟨⟨d.value, (noteOf d).derivation⟩, ?_, ?_⟩
  · exact Reference.resolveFrom_of_none (Text.splitAt?_eq_none_iff.2 h)
  · split
    · next hev => exact ⟨d.value, he hev, rfl⟩
    · rfl

theorem noteOf_declaration (p : Property) : noteOf p.declaration = Note.parse p.note.render := by
  unfold noteOf declaration
  cases he : p.note.isEmpty with
  | true =>
    obtain ⟨hc, hd⟩ : p.note.comment = none ∧ p.note.derivation = none := by
      simpa [Note.isEmpty] using he
    unfold Note.render
    rw [hc, hd]
    rfl
  | false => rfl

end Lineage.Property

/-! ## Sections -/

namespace Lineage

open Source

namespace Section

/-- The block that a section is written as. -/
def block (m : Mode) (s : Section) : Block :=
  ⟨s.name, if m = .diff then s.parents else [], 0, (s.written m).map Property.declaration⟩

variable {m : Mode} {s : Section}

theorem header_eq (m : Mode) (s : Section) : s.header m = (s.block m).printHeader := by
  unfold header Block.printHeader Block.printParents block
  cases m <;> simp

theorem render_eq (m : Mode) (s : Section) : s.render m = Text.ofLines (s.block m).rows := by
  have h : ((s.written m).flatMap fun p => p.render ++ ['\n']) =
      Text.ofLines ((s.block m).declarations.map Declaration.print) := by
    rw [Text.ofLines, block, List.map_map, List.flatMap_map]
    simp only [Function.comp_apply, ← Property.render_eq_print]
  rw [render, header_eq, h, Block.rows, Text.ofLines, Text.ofLines, List.flatMap_cons]
  simp

end Section

theorem Document.renderSections_eq_print (m : Mode) (ss : List Section) :
    renderSections m ss = print (ss.map (Section.block m)) := by
  unfold renderSections print
  induction ss with
  | nil => rfl
  | cons s ss ih =>
    cases ss with
    | nil => exact (List.intercalate_singleton ..).trans (s.render_eq m)
    | cons s' ss =>
      have hrows : rowsOf ((s :: s' :: ss).map (Section.block m)) =
          (s.block m).rows ++ [] :: rowsOf ((s' :: ss).map (Section.block m)) := rfl
      rw [List.map_cons] at ih
      rw [hrows, Text.ofLines_append, List.map_cons, List.map_cons, List.intercalate_cons_cons, ih,
        s.render_eq m]
      simp [Text.ofLines]

theorem Limits.admits_unlimited {size : Nat} (h : size ≤ Limits.greatest) :
    Admits .unlimited size :=
  ⟨h, h, h, h⟩

/-- A document of readable blocks is read as these blocks. -/
theorem Document.ofText_renderSections {m : Mode} {ss : List Section}
    (h : ∀ s ∈ ss, (s.block m).Readable)
    (hs : (renderSections m ss).utf8Size ≤ Limits.greatest) :
    ∃ bs, Block.ofText (renderSections m ss) .unlimited = .ok bs ∧
      bs.map Block.unnumbered = (ss.map (Section.block m)).map Block.unnumbered := by
  rw [renderSections_eq_print] at hs ⊢
  refine ofText_print (Limits.admits_unlimited hs) fun b hb => ?_
  obtain ⟨s, hm, rfl⟩ := List.mem_map.1 hb
  exact h s hm

end Lineage
