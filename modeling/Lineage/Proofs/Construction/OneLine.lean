import Lineage.Proofs.Construction.Lines
import Lineage.Proofs.Construction.Run
import Lineage.Proofs.Property.Note
import Lineage.Proofs.Reference.Resolved
import Lineage.Proofs.Text.Replace
/-!
# Values of one line

Lines hold no newline, and neither do the values that are made from them; blanks around a value are
dropped (`oneLine_of_sectionsOf`). So every value can be written on a line again.
-/
namespace Lineage

open Source

/-- A text that is a part of a line: no newline stands in it, and no blank around it. -/
structure Text.OneLine (t : Text) : Prop where
  line : '\n' ∉ t
  trim : t.trim = t

/-- The name of the section and its literals are parts of lines. -/
structure Section.OneLine (s : Section) : Prop where
  name_ne : s.name ≠ []
  name : s.name.OneLine
  literals : ∀ p ∈ s.properties, p.value.literal.OneLine

/-! ## Values -/

theorem not_isNumeral_newline : ¬ Expression.IsNumeral '\n' := by
  simp only [Expression.IsNumeral]
  decide

theorem Value.oneLine_infer {t : Text} (h : '\n' ∉ t) : (infer t).literal.OneLine := by
  have hr := readable_infer t
  refine ⟨?_, trim_literal hr⟩
  cases hv : infer t with
  | bool b => cases b <;> decide
  | number x =>
    have hx := hr.number x hv
    exact fun hm =>
      not_isNumeral_newline (Expression.isNumeral_of_isPlain (Number.isPlain_format hx) hm)
  | text u =>
    unfold infer at hv
    split at hv
    · cases hv
    · split at hv
      · cases hv
      · split at hv
        · cases hv
        · cases hv
          exact fun hm => h (Text.mem_of_mem_trim hm)

theorem Text.mem_replaceFrom {w v t : Text} {skip : Nat} {c : Char}
    (h : c ∈ replaceFrom w v skip t) : c ∈ t ∨ c ∈ v := by
  fun_induction replaceFrom w v skip t with
  | case1 => cases h
  | case2 skip d r ih => exact (ih h).imp_left (List.mem_cons_of_mem d)
  | case3 d r _ ih =>
    rcases List.mem_append.1 h with h | h
    · exact .inr h
    · exact (ih h).imp_left (List.mem_cons_of_mem d)
  | case4 d r _ ih =>
    rcases List.mem_cons.1 h with rfl | h
    · exact .inl (List.mem_cons_self ..)
    · exact (ih h).imp_left (List.mem_cons_of_mem d)

theorem Text.mem_replaceAll {t w v : Text} {c : Char} (h : c ∈ replaceAll t w v) :
    c ∈ t ∨ c ∈ v := by
  unfold replaceAll at h
  split at h
  · simp only [List.mem_append, List.mem_flatMap, List.mem_cons] at h
    rcases h with h | ⟨d, hd, rfl | h⟩
    · exact .inr h
    · exact .inl hd
    · exact .inr h
  · exact mem_replaceFrom h

variable {s s' : Section} {L : Lookup} {overwrite : Bool}

/-- References put in names and literals, which are parts of lines. -/
theorem newline_not_mem_resolve {raw : Text} {a : Note} {r : Reference.Resolution}
    (h : Reference.resolve raw a s L = .ok r) (hraw : '\n' ∉ raw) (hs : s.OneLine)
    (hL : ∀ x o, L x = some o → o.OneLine) : '\n' ∉ r.text := by
  intro hm
  rcases Reference.mem_resolveFrom h hm with hm | hm | ⟨o, ho, p, hp, hm⟩
  · exact hraw hm
  · exact hs.name.line hm
  · have : o.OneLine := by
      rcases ho with rfl | ⟨x, hx⟩
      · exact hs
      · exact hL x o hx
    exact (this.literals p hp).line hm

theorem newline_not_mem_evaluate {t r : Text} (h : Expression.evaluate t = .ok r) (ht : '\n' ∉ t) :
    '\n' ∉ r :=
  fun hm => (Expression.mem_evaluate h hm).elim ht not_isNumeral_newline

theorem Value.oneLine_renamed {name name' : Text} {v : Value} (hv : v.literal.OneLine)
    (hne : name' ≠ []) (hn : name'.OneLine) : (v.renamed name name').literal.OneLine := by
  cases v with
  | text t =>
    exact ⟨fun hm => (Text.mem_replaceAll hm).elim hv.line hn.line,
      Text.trim_replaceAll hv.trim hne hn.trim⟩
  | bool b => exact hv
  | number x => exact hv

/-! ## Merging -/

namespace Section

/-- No newline stands in the expressions of the section. -/
def OneLineExpressions (s : Section) : Prop := ∀ raw, s.Holds raw → '\n' ∉ raw

theorem oneLine_copyValue {p : Property} {parent : Text} {v : Value}
    (h : s.copyValue parent L p = .ok v) (hp : p ∈ s.properties) (hs : s.OneLine)
    (he : s.OneLineExpressions) (hL : ∀ x o, L x = some o → o.OneLine) : v.literal.OneLine := by
  unfold copyValue at h
  split at h
  · cases h
    exact hs.literals p hp
  · cases h
    exact Value.oneLine_renamed (hs.literals p hp) hs.name_ne hs.name
  · next raw hd =>
    obtain ⟨r, t, hr, ht, rfl⟩ := valueOfExpression_ok_iff.1 h
    have hresolved := newline_not_mem_resolve hr (he raw ⟨p, hp, hd⟩) hs hL
    exact Value.oneLine_infer (newline_not_mem_evaluate ht hresolved)

theorem OneLine.rederive {parent key : Text} (h : s.rederive parent key L = .ok s')
    (hs : s.OneLine) (he : s.OneLineExpressions) (hL : ∀ x o, L x = some o → o.OneLine) :
    s'.OneLine := by
  rcases rederive_ok_iff.1 h with ⟨-, rfl⟩ | ⟨p, v, hp, -, hv, rfl⟩
  · exact hs
  · have hnew := oneLine_copyValue hv (List.mem_of_find?_eq_some hp) hs he hL
    refine ⟨hs.name_ne, hs.name, fun q hq => ?_⟩
    rcases mem_modifyFirst hq with hq | ⟨r, hr, -, rfl⟩
    · exact hs.literals q hq
    · exact hnew

theorem OneLine.rederiveAll {parent : Text} {keys : List Text}
    (h : (rederiveAll parent L keys s).toExcept = .ok s') (hs : s.OneLine)
    (he : s.OneLineExpressions) (hL : ∀ x o, L x = some o → o.OneLine) : s'.OneLine := by
  induction keys generalizing s with
  | nil =>
    cases h
    exact hs
  | cons key keys ih =>
    obtain ⟨m, hm, h⟩ := rederiveAll_cons_ok_iff.1 h
    refine ih h (hs.rederive hm he hL) fun raw hr => ?_
    exact he raw (((sameShape_of_rederive hm).holds_iff raw).1 hr)

theorem OneLine.inheritWith {parent : Section}
    (h : (s.inheritWith parent overwrite L).toExcept = .ok s') (hs : s.OneLine)
    (he : s.OneLineExpressions) (hp : parent.OneLine) (hpe : parent.OneLineExpressions)
    (hL : ∀ x o, L x = some o → o.OneLine) : s'.OneLine := by
  obtain ⟨m, hm, h⟩ := inheritWith_ok_iff.1 h
  refine OneLine.rederiveAll h ?_ ?_ hL
  · obtain rfl := validate_ok hm
    refine ⟨hs.name_ne, hs.name, fun p hp' => ?_⟩
    replace hp' := (keepLast_sublist _ _).subset hp'
    simp only [appendCopies, List.mem_append, List.mem_map] at hp'
    rcases hp' with hp' | ⟨q, hq, rfl⟩
    · exact hs.literals p hp'
    · exact hp.literals q hq
  · exact fun raw hr => (holds_of_validate hm hr).elim (he raw) (hpe raw)

end Section

/-! ## Building -/

namespace Construction

theorem OneLine.mergeParents {line : Nat} {ps : List Text}
    (h : mergeParents line L s ps = .ok s') (hs : s.OneLine) (he : s.OneLineExpressions)
    (hL : ∀ x o, L x = some o → o.OneLine ∧ o.OneLineExpressions) : s'.OneLine := by
  induction ps generalizing s with
  | nil =>
    cases h
    exact hs
  | cons p ps ih =>
    obtain ⟨P, m, hP, hm, h⟩ := mergeParents_cons_ok h
    obtain ⟨hp, hpe⟩ := hL p P hP
    refine ih h (hs.inheritWith hm he hp hpe fun x o ho => (hL x o ho).1) fun raw hr => ?_
    exact (Section.holds_of_inheritWith hm hr).elim (he raw) (hpe raw)

theorem oneLine_property {d : Declaration} {p : Property} (h : property d s L = .ok p)
    (hd : d.Readable) (hs : s.OneLine) (hL : ∀ x o, L x = some o → o.OneLine) :
    p.value.literal.OneLine := by
  obtain ⟨r, hr, hp⟩ := property_ok_iff.1 h
  have ht := newline_not_mem_resolve hr (fun hm => (hd.value_chars _ hm).2 rfl) hs hL
  split at hp
  · obtain ⟨t, he, rfl⟩ := hp
    exact Value.oneLine_infer (newline_not_mem_evaluate he ht)
  · subst hp
    exact Value.oneLine_infer ht

theorem OneLine.declareLines {ds : List Declaration} (h : declareLines overwrite L s ds = .ok s')
    (hds : ∀ d ∈ ds, d.Readable) (hs : s.OneLine) (hL : ∀ x o, L x = some o → o.OneLine) :
    s'.OneLine := by
  induction ds generalizing s with
  | nil =>
    cases h
    exact hs
  | cons d ds ih =>
    obtain ⟨p, m, hp, hm, h⟩ := declareLines_cons_ok h
    refine ih h (fun d' hd' => hds d' (by simp [hd'])) ?_
    obtain rfl := Section.insert_ok hm
    refine ⟨hs.name_ne, hs.name, fun q hq => ?_⟩
    rcases List.mem_append.1 hq with hq | hq
    · exact hs.literals q (List.mem_of_mem_eraseP hq)
    · have hnew := oneLine_property hp (hds d (by simp)) hs hL
      rw [List.mem_singleton.1 hq]
      exact hnew

theorem printable_noteOf {d : Declaration} (hd : d.Readable) : (noteOf d).Printable := by
  unfold noteOf
  cases hc : d.comment with
  | none => refine ⟨?_, ?_, ?_, ?_⟩ <;> rintro _ ⟨⟩
  | some c =>
    exact Note.printable_parse (hd.comment_trim c hc) ⟨hd.comment_head c hc, hd.comment_chars c hc⟩

theorem newline_not_mem_expression {d : Declaration} {p : Property} {raw : Text}
    (h : property d s L = .ok p) (hd : d.Readable)
    (he : p.derivation = some (.expression raw)) : '\n' ∉ raw := by
  rcases expression_of_property h he with hn | rfl | rfl
  · exact (printable_noteOf hd).expression_line raw hn
  · exact fun hm => (hd.value_chars _ (Text.mem_of_mem_trim hm)).2 rfl
  · exact fun hm => (hd.value_chars _ hm).2 rfl

/-- The note of a line can be printed. -/
theorem printable_note {d : Declaration} {p : Property} (h : property d s L = .ok p)
    (hd : d.Readable) : p.note.Printable := by
  have hc : p.note.comment = (noteOf d).comment := by
    obtain ⟨r, -, hp⟩ := property_ok_iff.1 h
    split at hp
    · obtain ⟨t, -, rfl⟩ := hp
      rfl
    · subst hp
      rfl
  have hn := printable_noteOf hd
  exact ⟨hc ▸ hn.comment_trim, hc ▸ hn.comment_head, hc ▸ hn.comment_line,
    fun e he => newline_not_mem_expression h hd he⟩

/-- A readable block yields a section of one-line values, if its parents are such sections. -/
theorem oneLine_of_ofBlock {b : Block} (hb : b.Readable) (h : ofBlock b L overwrite = .ok s)
    (hL : ∀ x o, L x = some o → o.OneLine ∧ o.OneLineExpressions) :
    s.OneLine ∧ s.OneLineExpressions := by
  obtain ⟨m, hm, h⟩ := ofBlock_ok h
  have hnew : (Section.new b.name).OneLine := by
    refine ⟨hb.name_ne, ⟨fun hmem => (hb.name_chars _ hmem).2 rfl, hb.name_trim⟩, fun p hp => ?_⟩
    cases hp
  have hone := OneLine.mergeParents hm hnew (by rintro raw ⟨p, ⟨⟩, -⟩) hL
  refine ⟨OneLine.declareLines h hb.declarations hone fun x o ho => (hL x o ho).1, fun raw hr => ?_⟩
  rcases holds_of_declareLines h hr with hr | ⟨d, hd, m', p, hp, he⟩
  · rcases holds_of_mergeParents hm hr with ⟨p, ⟨⟩, -⟩ | ⟨p, -, P, hP, hr⟩
    exact (hL p P hP).2 raw hr
  · exact newline_not_mem_expression hp (hb.declarations d hd) he

variable {blocks bs : List Block} {built ss final : List Section}

/-- The values of the sections of readable blocks are parts of lines. -/
theorem oneLine_of_sectionsOf (hread : ∀ b ∈ blocks, b.Readable)
    (h : sectionsOf blocks overwrite = .ok ss) : ∀ s ∈ ss, s.OneLine := by
  obtain ⟨order, built, ho, hb, rfl⟩ := sectionsOf_ok_iff.1 h
  intro s hs
  obtain ⟨b, -, hf⟩ := List.mem_filterMap.1 hs
  refine (hb.forall (Q := fun s => s.OneLine ∧ s.OneLineExpressions) (by simp)
    (fun b hm L s _ hL hs => ?_) s (List.mem_of_find?_eq_some hf)).1
  exact oneLine_of_ofBlock (hread b ((arrange_perm ho).subset hm)) hs fun x o ho => (hL x o ho).2

end Construction

end Lineage
