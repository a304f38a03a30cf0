import Lineage.Proofs.Construction.Consulted
import Lineage.Proofs.Source.Readable
/-!
# Properties of lines

What a line declares (`property_ok_iff`). The expression of its property stands on the line, as its
value or in its comment, so the sections that the expression names are named in the line
(`mem_namesIn_of_property`).
-/
namespace Lineage

open Source

/-- Blanks around a comment do not stand in its tag. -/
theorem Note.expressionSource_append {a b : Text} (ha : Text.AllBlank a) (hb : Text.AllBlank b)
    (t : Text) : expressionSource (a ++ t ++ b) = expressionSource t := by
  have hopen : '{' ∉ a := ha.not_mem rfl
  have hopen' : '{' ∉ b := hb.not_mem rfl
  have hclose : '}' ∉ b := hb.not_mem rfl
  unfold expressionSource braces?
  rw [List.append_assoc, Text.splitAt?_append_left hopen, Text.splitAt?_append_right hopen']
  cases t.splitAt? '{' with
  | none => rfl
  | some p =>
    simp only [Option.map_some]
    rw [Text.splitAt?_append_right hclose, Option.map_map, Option.map_map, Option.map_map]
    rfl

/-- The expression that is noted is the one that the order of construction looks into. -/
theorem Note.expressionSource_of_parse {raw e : Text}
    (h : (Note.parse raw).derivation = some (.expression e)) :
    Note.expressionSource raw = some e := by
  have htrim : expressionSource raw = expressionSource raw.trim := by
    obtain ⟨a, b, ha, hb, he⟩ := Text.exists_trim raw
    rw [← expressionSource_append ha hb raw.trim, ← he]
  rw [htrim]
  unfold Note.parse at h
  unfold Note.expressionSource
  cases hb : Note.braces? raw.trim with
  | none =>
    rw [hb] at h
    simp only at h
    split at h <;> cases h
  | some b =>
    obtain ⟨before, inside, behind⟩ := b
    rw [hb] at h
    simp only at h
    split at h <;> simp_all

namespace Construction

variable {L : Lookup} {s s' : Section} {overwrite : Bool} {d : Declaration} {p : Property}

/-- The note that the comment of a line states. -/
def noteOf (d : Declaration) : Note := (d.comment.map Note.parse).getD .blank

/-- Whether a line is evaluated whose references were replaced so. -/
def isEvaluated (d : Declaration) (r : Reference.Resolution) : Bool :=
  r.derivation.any Derivation.isExpression || r.text.contains '(' ||
    Reference.forcesEvaluation d.value (noteOf d)

/-- The derivation that is noted for an evaluated line. -/
def derivationOf (d : Declaration) (r : Reference.Resolution) : Option Derivation :=
  if r.derivation.any Derivation.isExpression then r.derivation else some (.expression d.value)

/-- The property of a line is that of its value, evaluated or not. -/
theorem property_ok_iff : property d s L = .ok p ↔
    ∃ r, Reference.resolve d.value (noteOf d) s L = .ok r ∧
      if isEvaluated d r then ∃ t, Expression.evaluate r.text = .ok t ∧
        p = .new d.key (.infer t) ⟨(noteOf d).comment, derivationOf d r⟩
      else p = .new d.key (.infer r.text) ⟨(noteOf d).comment, r.derivation⟩ := by
  have hn : (d.comment.map Note.parse).getD .blank = noteOf d := rfl
  simp only [property, hn]
  cases Reference.resolve d.value (noteOf d) s L with
  | error c => simp
  | ok r =>
    have he : (r.derivation.any Derivation.isExpression || r.text.contains '(' ||
      Reference.forcesEvaluation d.value (noteOf d)) = isEvaluated d r := rfl
    simp only [he, Except.ok.injEq, exists_eq_left', ← derivationOf.eq_1]
    cases isEvaluated d r with
    | false => simp [eq_comm]
    | true =>
      cases Expression.evaluate r.text with
      | error f => simp
      | ok t => simp [eq_comm]

/-- The expression of a declared property stands on its line, in the comment or as the value. -/
theorem expression_of_property {e : Text} (h : property d s L = .ok p)
    (he : p.derivation = some (.expression e)) :
    (noteOf d).derivation = some (.expression e) ∨ e = d.value.trim ∨ e = d.value := by
  obtain ⟨r, hr, hp⟩ := property_ok_iff.1 h
  have hnoted : r.derivation = some (.expression e) →
      (noteOf d).derivation = some (.expression e) ∨ e = d.value.trim ∨ e = d.value :=
    fun h => (Reference.derivation_of_resolveFrom hr h).imp_right .inl
  split at hp
  · obtain ⟨t, -, rfl⟩ := hp
    simp only [Property.derivation, Property.new, derivationOf] at he
    split at he
    · exact hnoted he
    · cases he
      exact .inr (.inr rfl)
  · subst hp
    exact hnoted he

theorem mem_namesIn {x : Text} : x ∈ namesIn d ↔ x ≠ [] ∧ (x ∈ Reference.namesFrom d.value ∨
    ∃ c e, d.comment = some c ∧ Note.expressionSource c = some e ∧
      x ∈ Reference.namesFrom e) := by
  simp only [namesIn, List.mem_append, Reference.mem_sectionsNamed]
  cases hc : d.comment with
  | none => simp [and_comm]
  | some c =>
    cases he : Note.expressionSource c with
    | none => simp [he, and_comm]
    | some e =>
      simp only [Option.bind_some, he, Option.map_some, Option.getD_some,
        Reference.mem_sectionsNamed, Option.some.injEq, exists_and_left, exists_eq_left']
      grind

/-- What the expression of a line names is among the names that the line depends on. -/
theorem mem_namesIn_of_property {e x : Text} (h : property d s L = .ok p)
    (he : p.derivation = some (.expression e)) (hx : x ∈ Reference.namesFrom e) (hne : x ≠ []) :
    x ∈ namesIn d := by
  refine mem_namesIn.2 ⟨hne, ?_⟩
  rcases expression_of_property h he with hn | rfl | rfl
  · refine .inr ?_
    cases hc : d.comment with
    | none => simp [noteOf, hc, Note.blank] at hn
    | some c =>
      simp only [noteOf, hc, Option.map_some, Option.getD_some] at hn
      exact ⟨c, e, rfl, Note.expressionSource_of_parse hn, hx⟩
  · exact .inl (Reference.mem_namesFrom_trim.1 hx)
  · exact .inl hx

/-- An expression that a section holds after its lines was there before, or a line brought it. -/
theorem holds_of_declareLines {ds : List Declaration} {raw : Text}
    (h : declareLines overwrite L s ds = .ok s') (hr : s'.Holds raw) :
    s.Holds raw ∨ ∃ d ∈ ds, ∃ m p, property d m L = .ok p ∧
      p.derivation = some (.expression raw) := by
  induction ds generalizing s with
  | nil =>
    cases h
    exact .inl hr
  | cons d ds ih =>
    obtain ⟨p, m, hp, hm, h⟩ := declareLines_cons_ok h
    rcases ih h with ⟨q, hq, he⟩ | ⟨d', hd', hx⟩
    · obtain rfl := Section.insert_ok hm
      rcases List.mem_append.1 hq with hq | hq
      · exact .inl ⟨q, List.mem_of_mem_eraseP hq, he⟩
      · obtain rfl := List.mem_singleton.1 hq
        exact .inr ⟨d, by simp, s, p, hp, he⟩
    · exact .inr ⟨d', by simp [hd'], hx⟩

end Construction

end Lineage
