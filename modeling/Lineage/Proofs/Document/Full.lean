import Lineage.Proofs.Construction.Twins
import Lineage.Proofs.Construction.FileOrder
import Lineage.Proofs.Property.Written
import Lineage.Proofs.Section.Listed
/-!
# Full texts read back

A full text names no parents, so its sections are built one by one from their own lines. A
representable document is read back from it, but for parents and marks of origin
(`parse_render_full`).
-/
namespace Lineage

open Source Construction

/-! ## Sections -/

namespace Section

/-- A section that is told from its full text. -/
structure Representable (s : Section) : Prop where
  name_ne : s.name ≠ []
  name_trim : s.name.trim = s.name
  name_chars : ∀ c ∈ s.name, c ≠ ']' ∧ c ≠ '\n'
  keys : (s.properties.map Property.key).Nodup
  properties : ∀ p ∈ s.properties, p.Writable

/-- What is read from the full text of a section. -/
def flat (s : Section) : Section := ⟨s.name, [], redeclared s.name s.listed⟩

variable {s : Section}

theorem Representable.readable_block (h : s.Representable) : (s.block .full).Readable := by
  refine ⟨⟨h.name_ne, h.name_trim, h.name_chars, by simp [block]⟩, fun d hd => ?_⟩
  obtain ⟨p, hp, rfl⟩ := List.mem_map.1 hd
  rw [written_full, mem_listed] at hp
  exact (h.properties p hp).printable.declaration

theorem ofBlock_full (h : s.Representable) (L : Lookup) :
    ofBlock (s.block .full) L true = .ok s.flat := by
  have hkeys : (s.listed.map Property.key).Nodup := ((listed_perm s).map _).nodup_iff.2 h.keys
  have hlines : ∀ p ∈ s.listed, p.Settled ∧ '$' ∉ p.value.literal := fun p hp => by
    have hw := h.properties p (mem_listed.1 hp)
    exact ⟨hw.settled, fun hm => (hw.literal_chars _ hm).2.2.1 rfl⟩
  have hd := @declareLines_declarations L (new s.name) s.listed hlines hkeys List.nodup_nil
  unfold ofBlock
  simp only [block, written_full]
  rw [if_neg (by decide), mergeParents]
  exact hd

theorem declaration_reread {p : Property} (h : p.Writable) (owner : Text) :
    (p.reread.attach owner).declaration = p.declaration := by
  have hl : (p.reread.attach owner).value.literal = p.value.literal :=
    (Property.value_reread h.value owner).literal
  have hn : (p.reread.attach owner).note = p.note := h.rereadNote_eq
  unfold Property.declaration
  rw [hl, hn]
  rfl

/-- The full text of a section is written again after it was read. -/
theorem block_flat (h : s.Representable) : s.flat.block .full = s.block .full := by
  have hl : s.flat.listed = redeclared s.name s.listed :=
    listed_of_map (fun p hp => (Property.value_reread (h.properties p hp).value s.name).kind) rfl
  have hd : (redeclared s.name s.listed).map Property.declaration =
      s.listed.map Property.declaration := by
    rw [redeclared, List.map_map]
    exact List.map_congr_left fun p hp =>
      declaration_reread (h.properties p (mem_listed.1 hp)) s.name
  simp only [block, written_full, hl, hd]
  rfl

end Section

/-! ## Documents -/

namespace Document

/-- A document that is told from its full text, but for parents and marks of origin. -/
structure Representable (d : Document) : Prop where
  names : d.names.Nodup
  sections : ∀ s ∈ d.sections, s.Representable

variable {d : Document} {blocks bs : List Block} {overwrite : Bool} {built ss : List Section}

theorem exists_builds_of_independent (h : ∀ b ∈ bs, ∃ s, ∀ L, ofBlock b L overwrite = .ok s) :
    ∃ final, Builds overwrite built bs final := by
  induction bs generalizing built with
  | nil => exact ⟨built, .nil⟩
  | cons b bs ih =>
    obtain ⟨s, hs⟩ := h b (by simp)
    obtain ⟨final, hf⟩ := @ih (built ++ [s]) fun b' hb => h b' (by simp [hb])
    exact ⟨final, .cons (hs _) hf⟩

/-- Blocks that inherit nothing have an order, whatever they refer to. -/
theorem exists_order_of_no_parents (hp : ∀ b ∈ blocks, b.parents = [])
    (hn : (blocks.map Block.name).Nodup) :
    ∃ order, Order.construction (blocks.map node) = .ok order := by
  have none : ∀ n ∈ blocks.map node, n.parents = [] := by
    intro n hm
    obtain ⟨b, hb, rfl⟩ := List.mem_map.1 hm
    exact hp b hb
  refine Order.construction_ok_iff.2 ⟨?_, fun n hm p h => ?_, fun x hx => ?_⟩
  · rwa [List.map_map]
  · rw [none n hm] at h
    cases h
  · obtain ⟨y, ⟨n, hm, -, h⟩, -⟩ := Relation.TransGen.head'_iff.1 hx
    rw [none n hm] at h
    cases h

/-- Blocks without parents that yield their sections from nothing yield them together. -/
theorem sectionsOf_of_independent
    (h : List.Forall₂ (fun b s => b.parents = [] ∧ ∀ L, ofBlock b L overwrite = .ok s) blocks ss)
    (hn : (blocks.map Block.name).Nodup) : sectionsOf blocks overwrite = .ok ss := by
  have hall : ∀ b ∈ blocks, b.parents = [] ∧ ∃ s, ∀ L, ofBlock b L overwrite = .ok s := by
    intro b hb
    obtain ⟨s, -, hs⟩ := exists_right_of_forall₂ h hb
    exact ⟨hs.1, s, hs.2⟩
  obtain ⟨order, ho⟩ := exists_order_of_no_parents (fun b hb => (hall b hb).1) hn
  obtain ⟨built, hb⟩ := @exists_builds_of_independent (arrange blocks order) overwrite []
    fun b hb => (hall b ((arrange_perm ho).subset hb)).2
  have hs := sectionsOf_ok_iff.2 ⟨order, built, ho, hb, rfl⟩
  rw [hs, eq_of_forall₂ (fun b s s' h1 h2 => ?_) (finished_of_sectionsOf hs) h]
  exact Except.ok.inj (h1.2.symm.trans (h2.2 _))

/-- Blocks that representable sections are written as yield the sections without their parents. -/
theorem sectionsOf_full {bs : List Block} (h : ∀ s ∈ ss, s.Representable)
    (hn : (ss.map Section.name).Nodup)
    (hb : bs.map Block.unnumbered = (ss.map (Section.block .full)).map Block.unnumbered) :
    sectionsOf bs true = .ok (ss.map Section.flat) := by
  have hnames : bs.map Block.name = ss.map Section.name := by
    have := congrArg (List.map Block.name) hb
    simpa [Function.comp_def, Block.unnumbered, Section.block] using this
  refine sectionsOf_of_independent ?_ (hnames ▸ hn)
  rw [List.forall₂_map_right_iff]
  rw [List.map_map] at hb
  refine (forall₂_of_map_eq hb).imp fun b s hs => ?_
  obtain ⟨hs, hbs⟩ := hs
  refine ⟨?_, fun L => ?_⟩
  · have : b.unnumbered.parents = (s.block .full).unnumbered.parents := congrArg _ hbs
    simpa [Block.unnumbered, Section.block] using this
  · exact ofBlock_unnumbered (Section.ofBlock_full (h s hs) L) hbs.symm

theorem render_flat (h : ∀ s ∈ ss, s.Representable) :
    renderSections .full (ss.map Section.flat) = renderSections .full ss := by
  rw [renderSections_eq_print, renderSections_eq_print, List.map_map]
  exact congrArg print (List.map_congr_left fun s hs => Section.block_flat (h s hs))

/-- A representable document whose text fits into memory is read back from its full text: with the
same sections, without parents, and with the same keys, equal values and the same notes, as they
were listed. It is then written as the same text. -/
theorem parse_render_full (h : d.Representable)
    (hs : (d.render .full).utf8Size ≤ Limits.greatest) :
    ∃ d', parse (d.render .full) ⟨.unlimited, true⟩ = .ok d' ∧ d'.names = d.names ∧
      List.Forall₂ (fun s s' => s'.parents = [] ∧ List.Forall₂ (fun p p' =>
        p'.key = p.key ∧ (p'.value == p.value) = true ∧ p'.note = p.note) s.listed s'.properties)
        d.sections d'.sections ∧
      d'.render .full = d.render .full := by
  obtain ⟨bs, hb, hbs⟩ := ofText_renderSections
    (fun s hm => (h.sections s hm).readable_block) hs
  have hread : Construction.sections (d.render .full) ⟨.unlimited, true⟩ =
      .ok (d.sections.map Section.flat) :=
    (sections_eq_sectionsOf hb).trans (sectionsOf_full h.sections h.names hbs)
  refine ⟨⟨none, d.sections.map Section.flat, true, ⟨.unlimited, true⟩⟩, ?_, ?_, ?_, ?_⟩
  · rw [parse, hread]
    rfl
  · simp [names, Section.flat]
  · rw [List.forall₂_map_right_iff, List.forall₂_same]
    intro s hm
    refine ⟨rfl, ?_⟩
    rw [Section.flat, redeclared, List.forall₂_map_right_iff, List.forall₂_same]
    intro p hp
    have hw := (h.sections s hm).properties p (Section.mem_listed.1 hp)
    exact ⟨rfl, (Property.value_reread hw.value s.name).equal, hw.rereadNote_eq⟩
  · exact render_flat h.sections

/-- A section that inherits a derived number, with a text of its own. -/
def heir : Section := ⟨['C'], [['P']],
  [⟨['n'], .number (Number.ofMagnitude false 0), ⟨some ['#', 'n'], some (.expression ['$', 'm'])⟩,
      some ['C'], true, false, true⟩,
    ⟨['t'], .text ['a', ' ', 'b'], ⟨none, some .selfReference⟩, some ['C'], false, true, false⟩]⟩

theorem representable_heir : Representable ⟨none, [heir], false, .standard⟩ := by
  refine ⟨by decide, fun s hs => ?_⟩
  obtain rfl := List.mem_singleton.1 hs
  refine ⟨by decide, rfl, by simp [heir], by decide, fun p hp => ?_⟩
  simp only [heir, List.mem_cons, List.not_mem_nil, or_false] at hp
  rcases hp with rfl | rfl
  · have hfinite : (Number.ofMagnitude false 0).isFinite = true :=
      Number.isFinite_ofMagnitude (by rw [Number.infinity_eq]; omega)
    have hnote : Note.Writable ⟨some ['#', 'n'], some (.expression ['$', 'm'])⟩ := by
      refine ⟨⟨?_, ?_, ?_, ?_⟩, ?_, ?_, ?_, ?_, ?_⟩ <;> rintro _ ⟨⟩
      · rfl
      · exact ⟨'#', ['n'], rfl, rfl⟩
      · simp
      · simp
      · decide
      · simp
      · exact Note.takeSelfTag_none_iff.1 rfl
      · rfl
      · simp
    refine ⟨by decide, rfl, ?_, by simp, Value.readable_number hfinite, ?_, hnote, ?_, ?_⟩ <;>
      rintro _ ⟨⟩
    · simp [Note.isMark]
    · exact fun _ => rfl
  · have hnote : Note.Writable ⟨none, some .selfReference⟩ := by
      refine ⟨⟨?_, ?_, ?_, ?_⟩, ?_, ?_, ?_, ?_, ?_⟩ <;> rintro _ ⟨⟩
    have hvalue : Value.Readable (.text ['a', ' ', 'b']) := by
      refine ⟨?_, ?_, ?_, ?_⟩ <;> rintro _ ⟨⟩
      · rfl
      · rfl
      · decide
    refine ⟨by decide, rfl, ?_, by simp, hvalue, ?_, hnote, ?_, ?_⟩ <;> rintro _ ⟨⟩
    · simp [Note.isMark]
    · simp [Note.isMark]
    · rintro ⟨⟩

theorem parse_render_full_heir : ∃ d', parse (render ⟨none, [heir], false, .standard⟩ .full)
      ⟨.unlimited, true⟩ = .ok d' ∧ d'.names = [['C']] ∧
    List.Forall₂ (fun s s' => s'.parents = [] ∧ List.Forall₂ (fun p p' =>
      p'.key = p.key ∧ (p'.value == p.value) = true ∧ p'.note = p.note) s.listed s'.properties)
      [heir] d'.sections ∧
    d'.render .full = render ⟨none, [heir], false, .standard⟩ .full :=
  parse_render_full representable_heir (by decide +kernel)

end Document

end Lineage
