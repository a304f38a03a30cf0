import Lineage.Proofs.Construction.Lines
import Lineage.Proofs.Construction.Run
import Lineage.Proofs.Document.Results
import Lineage.Proofs.Lists
import Lineage.Proofs.Section.Uncommented
/-!
# Texts without free comments

The gist of a line is what it says apart from the free text of its comment: of the comment, the
derivation that it notes, and whether it forces the value to be evaluated. Blocks of the same gists
are ordered alike (`node_gist`) and built alike (`sectionsOf_gist`): both runs end in the same
fault, or in sections that differ in free comments only. So texts whose blocks have the same gists
stand for documents that differ in free comments only, or are refused alike (`parse_gist`).
-/
namespace Lineage

open Construction

namespace Source

/-- What a line says apart from the free text of its comment. -/
structure Gist where
  key : Text
  value : Text
  line : Nat
  /-- The derivation that the comment notes. -/
  derivation : Option Derivation
  /-- Whether the comment forces the value to be evaluated. -/
  forced : Bool
deriving DecidableEq

/-- The gist of a line. -/
def Declaration.gist (d : Declaration) : Gist :=
  ⟨d.key, d.value, d.line, (noteOf d).derivation, Reference.forcesEvaluation [] (noteOf d)⟩

/-- What a block says apart from the free text of its comments. -/
structure BlockGist where
  name : Text
  parents : List Text
  line : Nat
  declarations : List Gist
deriving DecidableEq

/-- The gist of a block. -/
def Block.gist (b : Block) : BlockGist :=
  ⟨b.name, b.parents, b.line, b.declarations.map Declaration.gist⟩

end Source

open Source

theorem map_eq_map_iff {ε α β : Type} {f : α → β} {x y : Except ε α} : x.map f = y.map f ↔
    (∃ e, x = .error e ∧ y = .error e) ∨ ∃ a b, x = .ok a ∧ y = .ok b ∧ f a = f b := by
  cases x <;> cases y <;> simp [Except.map, eq_comm]

/-! ## The order of construction -/

/-- The raw value of an expression. -/
def Derivation.source? : Derivation → Option Text
  | expression raw => some raw
  | selfReference => none

/-- A comment names the sections of the expression that it notes. -/
theorem Note.expressionSource_trim (raw : Text) :
    expressionSource raw.trim = (parse raw).derivation.bind Derivation.source? := by
  unfold expressionSource parse
  cases braces? raw.trim with
  | none =>
    simp only
    split <;> rfl
  | some b =>
    obtain ⟨before, inside, behind⟩ := b
    simp only
    split <;> rfl

namespace Construction

variable {d d' : Declaration} {b b' : Block} {s s' : Section} {L M : Lookup} {overwrite : Bool}

theorem namesIn_gist (hd : d.Readable) (hd' : d'.Readable) (h : d.gist = d'.gist) :
    namesIn d = namesIn d' := by
  have hsource {d : Declaration} (hd : d.Readable) : d.comment.bind Note.expressionSource =
      d.gist.derivation.bind Derivation.source? := by
    cases hc : d.comment with
    | none => simp [Declaration.gist, noteOf, hc, Note.blank]
    | some c =>
      have := Note.expressionSource_trim c
      rw [hd.comment_trim c hc] at this
      simpa [Declaration.gist, noteOf, hc] using this
  have hvalue : d.value = d'.value := congrArg Gist.value h
  rw [namesIn, namesIn, hsource hd, hsource hd', h, hvalue]

/-- Blocks of the same gist stand alike in the order of construction. -/
theorem node_gist (hb : b.Readable) (hb' : b'.Readable) (h : b.gist = b'.gist) :
    node b = node b' := by
  simp only [Block.gist, BlockGist.mk.injEq] at h
  obtain ⟨hname, hparents, hline, hlines⟩ := h
  have hnames : b.declarations.map namesIn = b'.declarations.map namesIn := by
    apply map_congr_of_map_eq hlines
    intro d hd d' hd'
    exact namesIn_gist (hb.declarations d hd) (hb'.declarations d' hd')
  rw [node, node, hname, hparents, hline, List.flatMap_def, hnames, ← List.flatMap_def]

/-! ## Lines -/

theorem resolve_gist {value : Text} {a a' : Note} (hd : a.derivation = a'.derivation)
    (hf : Reference.forcesEvaluation value a = Reference.forcesEvaluation value a')
    (hs : s.uncommented = s'.uncommented) (hL : L.uncommented = M.uncommented) :
    Reference.resolve value a s L = Reference.resolve value a' s' M := by
  calc Reference.resolve value a s L
      = Reference.resolve value a s.uncommented L.uncommented :=
        (Reference.resolve_uncommented rfl rfl).symm
    _ = Reference.resolve value a s'.uncommented M.uncommented := by rw [hs, hL]
    _ = Reference.resolve value a' s' M := Reference.resolve_uncommented hd hf

/-- Lines with the same gist declare the same property apart from its comment. -/
theorem property_gist (hd : d.gist = d'.gist) (hs : s.uncommented = s'.uncommented)
    (hL : L.uncommented = M.uncommented) : (property d s L).map Property.uncommented =
      (property d' s' M).map Property.uncommented := by
  simp only [Declaration.gist, Gist.mk.injEq] at hd
  obtain ⟨hkey, hvalue, -, hderivation, hforced⟩ := hd
  have hf : Reference.forcesEvaluation d'.value (noteOf d) =
      Reference.forcesEvaluation d'.value (noteOf d') := by
    rw [Reference.forcesEvaluation_eq, hforced, ← Reference.forcesEvaluation_eq]
  have hn (d : Declaration) : (d.comment.map Note.parse).getD .blank = noteOf d := rfl
  simp only [property, hn, hkey, hvalue, resolve_gist hderivation hf hs hL, hf]
  cases Reference.resolve d'.value (noteOf d') s' M with
  | error c => rfl
  | ok r =>
    simp only
    split
    · cases Expression.evaluate r.text <;> rfl
    · rfl

/-- Lines with the same gists are declared alike, one after another. -/
theorem declareLines_gist {ds ds' : List Declaration}
    (hds : ds.map Declaration.gist = ds'.map Declaration.gist)
    (hs : s.uncommented = s'.uncommented) (hL : L.uncommented = M.uncommented) :
    (declareLines overwrite L s ds).map Section.uncommented =
      (declareLines overwrite M s' ds').map Section.uncommented := by
  induction ds generalizing s s' ds' with
  | nil =>
    obtain rfl : ds' = [] := by simpa using hds.symm
    exact congrArg Except.ok hs
  | cons d ds ih =>
    obtain ⟨d', ds', rfl⟩ : ∃ d' l, ds' = d' :: l :=
      List.exists_cons_of_ne_nil (by rintro rfl; simp at hds)
    rw [List.map_cons, List.map_cons, List.cons.injEq] at hds
    have hline : d.line = d'.line := congrArg Gist.line hds.1
    unfold declareLines
    rcases map_eq_map_iff.1 (property_gist hds.1 hs hL) with
      ⟨c, hp, hp'⟩ | ⟨p, p', hp, hp', hpp⟩
    · rw [hp, hp', hline]
    · -- declared properties are alike, and so are the sections that take them
      have hinsert : (s.insert p overwrite).map Section.uncommented =
          (s'.insert p' overwrite).map Section.uncommented := by
        rw [← Section.insert_uncommented, ← Section.insert_uncommented, hs, hpp]
      simp only [hp, hp']
      rcases map_eq_map_iff.1 hinsert with ⟨f, hi, hi'⟩ | ⟨m, m', hi, hi', hmm⟩
      · rw [hi, hi', hline]
      · simp only [hi, hi']
        exact ih hds.2 hmm

/-! ## Blocks -/

/-- Free comments of parents reach heirs in comments only. -/
theorem mergeParents_uncommented (line : Nat) (L : Lookup) (s : Section) (ps : List Text) :
    mergeParents line L.uncommented s.uncommented ps =
      (mergeParents line L s ps).map Section.uncommented := by
  induction ps generalizing s with
  | nil => rfl
  | cons p ps ih =>
    unfold mergeParents
    cases hP : L p with
    | none =>
      rw [Lookup.uncommented, hP]
      rfl
    | some P =>
      have hmerge := Section.inheritWith_uncommented s P L
      have hfound : L.uncommented p = some P.uncommented := by rw [Lookup.uncommented, hP]; rfl
      simp only [hfound, hmerge]
      cases (s.inheritWith P true L).toExcept with
      | error f => rfl
      | ok m => exact ih m

/-- Blocks with the same gist yield sections that are equal apart from free comments. -/
theorem ofBlock_gist (hb : b.gist = b'.gist) (hL : L.uncommented = M.uncommented) :
    (ofBlock b L overwrite).map Section.uncommented =
      (ofBlock b' M overwrite).map Section.uncommented := by
  simp only [Block.gist, BlockGist.mk.injEq] at hb
  obtain ⟨hname, hparents, hline, hlines⟩ := hb
  have hmerge : (mergeParents b.line L (.new b.name) b.parents).map Section.uncommented =
      (mergeParents b'.line M (.new b'.name) b'.parents).map Section.uncommented := by
    rw [← mergeParents_uncommented, ← mergeParents_uncommented, hL, hname, hparents, hline]
  unfold ofBlock
  rcases map_eq_map_iff.1 hmerge with ⟨f, hm, hm'⟩ | ⟨m, m', hm, hm', hmm⟩
  · rw [hm, hm']
  · simp only [hm, hm']
    exact declareLines_gist hlines hmm hL

/-! ## Runs -/

variable {blocks blocks' : List Block} {built built' : List Section}

theorem find_uncommented (ss : List Section) :
    (find ss).uncommented = find (ss.map Section.uncommented) := by
  funext x
  rw [find, List.find?_map]
  rfl

/-- So do runs over such blocks. -/
theorem buildInOrder_gist {order : List Nat} (hb : blocks.map Block.gist = blocks'.map Block.gist)
    (hbuilt : built.map Section.uncommented = built'.map Section.uncommented) :
    (buildInOrder blocks overwrite built order).map (List.map Section.uncommented) =
      (buildInOrder blocks' overwrite built' order).map (List.map Section.uncommented) := by
  induction order generalizing built built' with
  | nil => exact congrArg Except.ok hbuilt
  | cons i order ih =>
    have hi : (blocks[i]?).map Block.gist = (blocks'[i]?).map Block.gist := by
      rw [← List.getElem?_map, ← List.getElem?_map, hb]
    unfold buildInOrder
    cases h : blocks[i]? with
    | none =>
      have h' : blocks'[i]? = none := by simpa [h] using hi.symm
      simp only [h']
      exact ih hbuilt
    | some b =>
      obtain ⟨b', h', hbb⟩ : ∃ b', blocks'[i]? = some b' ∧ b.gist = b'.gist := by
        rw [h] at hi
        obtain ⟨b', h', he⟩ := Option.map_eq_some_iff.1 hi.symm
        exact ⟨b', h', he.symm⟩
      have hL : (find built).uncommented = (find built').uncommented := by
        rw [find_uncommented, find_uncommented, hbuilt]
      have hname : b.name = b'.name := congrArg BlockGist.name hbb
      have hblock : (ofBlock b (find built) overwrite).map Section.uncommented =
          (ofBlock b' (find built') overwrite).map Section.uncommented := ofBlock_gist hbb hL
      simp only [h']
      rcases map_eq_map_iff.1 hblock with ⟨f, hs, hs'⟩ | ⟨s, s', hs, hs', hss⟩
      · rw [hs, hs', hname]
      · simp only [hs, hs']
        apply ih
        rw [List.map_append, List.map_append, hbuilt, List.map_singleton, List.map_singleton, hss]

/-- Blocks of the same gists yield sections that differ in free comments only, or the same
fault. -/
theorem sectionsOf_gist (hread : ∀ b ∈ blocks, b.Readable) (hread' : ∀ b ∈ blocks', b.Readable)
    (hb : blocks.map Block.gist = blocks'.map Block.gist) :
    (sectionsOf blocks overwrite).map (List.map Section.uncommented) =
      (sectionsOf blocks' overwrite).map (List.map Section.uncommented) := by
  have hnodes : blocks.map node = blocks'.map node := by
    apply map_congr_of_map_eq hb
    intro b hm b' hm'
    exact node_gist (hread b hm) (hread' b' hm')
  have hnames : blocks.map Block.name = blocks'.map Block.name :=
    map_congr_of_map_eq hb fun b _ b' _ => congrArg BlockGist.name
  -- the sections are put in the order of the names of the blocks
  have hput (blocks : List Block) (built : List Section) :
      (blocks.filterMap fun b => find built b.name).map Section.uncommented =
        (blocks.map Block.name).filterMap (find (built.map Section.uncommented)) := by
    rw [← find_uncommented, List.map_filterMap, List.filterMap_map]
    rfl
  unfold sectionsOf
  rw [hnodes]
  cases Order.construction (blocks'.map node) with
  | error f => rfl
  | ok order =>
    have hrun : (buildInOrder blocks overwrite [] order).map (List.map Section.uncommented) =
        (buildInOrder blocks' overwrite [] order).map (List.map Section.uncommented) :=
      buildInOrder_gist hb rfl
    rcases map_eq_map_iff.1 hrun with ⟨f, hs, hs'⟩ | ⟨built, built', hs, hs', hss⟩
    · simp only [hs, hs']
      rfl
    · simp only [hs, hs']
      refine congrArg Except.ok ?_
      rw [hput, hput, hnames, hss]

end Construction

/-! ## Documents -/

/-- A document without the free text of comments. -/
def Document.uncommented (d : Document) : Document :=
  { d with sections := d.sections.map Section.uncommented }

namespace Document

variable {t₁ t₂ : Text} {o : Options}

/-- Comments may be exchanged for others that note the same derivations and force the same
evaluations: the document stays the same, apart from the free comments in its properties, and so
does the fault of a text that cannot be read. -/
theorem parse_gist (h : (Block.ofText t₁ o.limits).map (List.map Block.gist) =
      (Block.ofText t₂ o.limits).map (List.map Block.gist)) :
    (∃ d₁ d₂, parse t₁ o = .ok d₁ ∧ parse t₂ o = .ok d₂ ∧ d₁.uncommented = d₂.uncommented) ∨
      ∃ f, parse t₁ o = .error f ∧ parse t₂ o = .error f := by
  rcases map_eq_map_iff.1 h with ⟨f, h₁, h₂⟩ | ⟨bs₁, bs₂, h₁, h₂, hgist⟩
  · exact .inr ⟨f, parse_of_error h₁, parse_of_error h₂⟩
  · rw [parse_of_blocks h₁, parse_of_blocks h₂]
    have hsections : (Construction.sectionsOf bs₁ o.overwrite).map (List.map Section.uncommented) =
        (Construction.sectionsOf bs₂ o.overwrite).map (List.map Section.uncommented) :=
      Construction.sectionsOf_gist (readable_of_ofText h₁) (readable_of_ofText h₂) hgist
    rcases map_eq_map_iff.1 hsections with ⟨f, hs, hs'⟩ | ⟨ss, ss', hs, hs', hss⟩
    · exact .inr ⟨f, by rw [hs]; rfl, by rw [hs']; rfl⟩
    · refine .inl ⟨⟨none, ss, true, o⟩, ⟨none, ss', true, o⟩, by rw [hs]; rfl, by rw [hs']; rfl, ?_⟩
      rw [uncommented, uncommented, hss]

/-- Comments that note an expression and force an evaluation. -/
def remarked : Text :=
  "[B] : A\nz = $A.x # of A\n[A]\nk = 2\nx = $k # old \x7b$k\x7d slf\ny = 3 # exp\n".toList

/-- Other comments to the same effect, which seem to name a section. -/
def remarkedAnew : Text :=
  "[B] : A\nz = $A.x\n[A]\nk = 2 # $B.z\nx = $k ; \x7b$k\x7d new\ny = 3 ; \x7b$B.z\n".toList

theorem parse_gist_remarked :
    ((Block.ofText remarked .standard).map (List.map Block.gist) =
      (Block.ofText remarkedAnew .standard).map (List.map Block.gist)) ∧
    ∃ d₁ d₂, parse remarked .standard = .ok d₁ ∧ parse remarkedAnew .standard = .ok d₂ ∧
      d₁.uncommented = d₂.uncommented := by
  have hgist : (Block.ofText remarked Options.standard.limits).map (List.map Block.gist) =
      (Block.ofText remarkedAnew Options.standard.limits).map (List.map Block.gist) :=
    eq_of_toOption_eq (by decide +kernel) (by decide +kernel)
  refine ⟨hgist, ?_⟩
  rcases parse_gist hgist with h | ⟨f, h, -⟩
  · exact h
  · obtain ⟨d, hd⟩ := exists_of_isOk (x := parse remarked .standard) (by decide +kernel)
    rw [hd] at h
    cases h

end Document

end Lineage
