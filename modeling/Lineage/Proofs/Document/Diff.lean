import Lineage.Proofs.Document.Results
import Lineage.Proofs.Document.Supplied
/-!
# Diff texts read back

A diff text leaves out what sections inherit, so this is merged and derived again when the text is
read. All values come back (`parse_render_diff`) if the lines tell all that heirs need, and if
sections are built after those that they consult (`Document.Reloadable`).
-/
namespace Lineage

open Source Section Reference Construction Relation

namespace Document

/-- A document whose values come back from its diff text. -/
structure Reloadable (d : Document) : Prop where
  sections : ∀ s ∈ d.sections, s.Reloadable (Heir d.sections s.name)
  supplied : ∀ bs, Block.ofText (d.render .diff) .unlimited = .ok bs →
    Supplied bs (find d.sections)

variable {d : Document} {t : Text} {ss : List Section} {s : Section} {bs : List Block} {b : Block}
  {M : Lookup} {N : Text → Prop}

/-! ## Sections -/

/-- Where a section's parents and what their expressions name are built again, so is the section. -/
theorem ofBlock_reloaded (hs : s ∈ ss) (h : Sourced (find ss) s)
    (hr : s.Reloadable (Heir ss s.name)) (hb : b.unnumbered = (s.block .diff).unnumbered)
    (hM : ∀ x t, M x = some t → t.name = x)
    (hfound : ∀ x o, Consults b (find ss) x → find ss x = some o →
      ∃ t, M x = some t ∧ Reloaded (Heir ss o.name) t o) :
    ∃ t, ofBlock b M true = .ok t ∧ Reloaded (Heir ss s.name) t s := by
  have hname := name_of_unnumbered hb
  have hparents := parents_of_unnumbered hb
  obtain ⟨b₀, -, hof⟩ := h.block
  have hserves : ∀ p ∈ s.parents, Serves (Heir ss s.name) s.name M (find ss) p := by
    intro p hp P hP
    have hpb : p ∈ b.parents := hparents.symm ▸ hp
    obtain ⟨P', hP', hR⟩ := hfound p P (.inl hpb) hP
    have hstep : Inherits ss s.name P.name := ⟨s, hs, rfl, name_of_find hP ▸ hp⟩
    refine ⟨P', Heir ss P.name, hP', hR.twins ⟨_, .single hstep⟩, fun n hn => hn.tail hstep,
      .single hstep, fun raw hraw x hx hne o ho => ?_⟩
    have hconsults : Consults b (find ss) x :=
      .inr ⟨hname.symm ▸ hne, .inr ⟨p, hpb, P, hP, raw, hraw, hx⟩⟩
    obtain ⟨o', ho', hR⟩ := hfound x o hconsults ho
    exact ⟨o', ho', hR.values⟩
  obtain ⟨t, ht, hR⟩ := ofBlock_diff hof (fun _ _ => name_of_find) hM hr hserves
  exact ⟨t, ofBlock_unnumbered ht hb.symm, hR⟩

/-! ## Documents -/

/-- Blocks with the headings of the sections of a text have an order. -/
theorem exists_order_of_headings {blocks : List Block} (h : sectionsOf blocks true = .ok ss)
    (hb : bs.map (fun b => (b.name, b.parents)) = ss.map fun s => (s.name, s.parents)) :
    ∃ order, Order.construction (bs.map node) = .ok order := by
  obtain ⟨order, built, ho, -⟩ := sectionsOf_ok_iff.1 h
  have hblocks : ss.map (fun s => (s.name, s.parents)) =
      blocks.map fun b => (b.name, b.parents) := by
    refine map_eq_of_forall₂ ((finished_of_sectionsOf h).imp fun b s hs => ?_)
    obtain ⟨m, ps, hshape⟩ := ofBlock_shape hs.2 fun _ _ => name_of_find
    rw [hshape.name, hshape.parents]
  refine Order.construction_ok_of_headings ?_ ho
  rw [List.map_map, List.map_map]
  exact List.Perm.of_eq (hblocks.symm.trans hb.symm)

theorem exists_order {blocks : List Block} (h : sectionsOf blocks true = .ok ss)
    (hb : Prints ss bs) :
    ∃ order, Order.construction (bs.map node) = .ok order := by
  refine exists_order_of_headings h ?_
  have := congrArg (List.map fun b : Block => (b.name, b.parents)) hb
  rwa [List.map_map, List.map_map, List.map_map] at this

/-- Blocks that the sections of a text are written as yield sections with the same values. -/
theorem sectionsOf_diff {blocks : List Block} (hread : ∀ b ∈ blocks, b.Readable)
    (h : sectionsOf blocks true = .ok ss) (hs : ∀ s ∈ ss, s.Reloadable (Heir ss s.name))
    (hb : Prints ss bs) (hsupplied : Supplied bs (find ss)) :
    ∃ ss', sectionsOf bs true = .ok ss' ∧
      List.Forall₂ (fun s t => Reloaded (Heir ss s.name) t s) ss ss' := by
  have hsourced := sourced_of_sectionsOf hread h
  obtain ⟨order, ho⟩ := exists_order h hb
  obtain ⟨final, hf, hall⟩ := exists_builds (R := fun t s => Reloaded (Heir ss s.name) t s)
    (fun b hm => by
      obtain ⟨s, hss, hbs⟩ := hb.exists_section ((arrange_perm ho).subset hm)
      exact ⟨s, name_of_unnumbered hbs ▸ (hsourced s hss).found, fun M hM hfound =>
        ofBlock_reloaded hss (hsourced s hss) (hs s hss) hbs hM hfound⟩) (hsupplied order ho)
  refine ⟨_, sectionsOf_ok_iff.2 ⟨order, final, ho, hf, rfl⟩, ?_⟩
  have hfound : List.Forall₂ (fun b t => find final b.name = some t) bs
      (bs.filterMap fun b => find final b.name) := by
    refine forall₂_filterMap fun b hm => ?_
    obtain ⟨t, ht, -⟩ := hf.found (arrange_perm ho) (names_nodup_of_construction ho) hm
    exact ⟨t, ht, ht⟩
  refine forall₂_of_forall₂ (fun b s t hs ht => ?_) hb.forall₂ hfound
  exact hall b.name t s ht (name_of_unnumbered hs.2 ▸ (hsourced s hs.1).found)

theorem sections_of_parse {o : Options} (h : parse t o = .ok d) :
    Construction.sections t o = .ok d.sections := by
  obtain ⟨ss, hs, rfl⟩ := parse_ok_iff_sections.1 h
  exact hs

theorem exists_blocks_diff (h : parse t ⟨.unlimited, true⟩ = .ok d)
    (hd : ∀ s ∈ d.sections, s.Reloadable (Heir d.sections s.name))
    (hs : (d.render .diff).utf8Size ≤ Limits.greatest) :
    ∃ bs, Block.ofText (d.render .diff) .unlimited = .ok bs ∧ Prints d.sections bs := by
  obtain ⟨blocks, hblocks, hbuilt⟩ := sections_ok (sections_of_parse h)
  have hsourced := sourced_of_sectionsOf (readable_of_ofText hblocks) hbuilt
  exact ofText_renderSections (fun s hm => readable_block_diff (hsourced s hm) (hd s hm)) hs

/-- A document is reloadable if its sections are, and if the blocks of its diff text do not depend
on each other in a circle. -/
theorem reloadable_of_acyclic (h : parse t ⟨.unlimited, true⟩ = .ok d)
    (hd : ∀ s ∈ d.sections, s.Reloadable (Heir d.sections s.name))
    (hs : (d.render .diff).utf8Size ≤ Limits.greatest)
    (ha : ∀ bs, Block.ofText (d.render .diff) .unlimited = .ok bs →
      Order.Acyclic (bs.map node)) : d.Reloadable := by
  refine ⟨hd, fun bs hbs => ?_⟩
  obtain ⟨blocks, hblocks, hbuilt⟩ := sections_ok (sections_of_parse h)
  obtain ⟨bs', hbs', hb⟩ := exists_blocks_diff h hd hs
  obtain rfl := Except.ok.inj (hbs.symm.trans hbs')
  exact supplied_of_acyclic (readable_of_ofText hblocks) (readable_of_ofText hbs) hbuilt hd hb
    (ha bs hbs)

/-- A reloadable document that was read from a text, and whose diff text fits into memory, is read
back from the diff text with the same sections and parents, and with equal values under the same
keys. -/
theorem parse_render_diff (h : parse t ⟨.unlimited, true⟩ = .ok d) (hd : d.Reloadable)
    (hs : (d.render .diff).utf8Size ≤ Limits.greatest) :
    ∃ d', parse (d.render .diff) ⟨.unlimited, true⟩ = .ok d' ∧
      List.Forall₂ (fun s s' => s'.name = s.name ∧ s'.parents = s.parents ∧
        ∀ key, Option.Rel (fun v' v => (v' == v) = true) (s'.value? key) (s.value? key))
        d.sections d'.sections := by
  obtain ⟨blocks, hblocks, hbuilt⟩ := sections_ok (sections_of_parse h)
  obtain ⟨bs, hbs, hb⟩ := exists_blocks_diff h hd.sections hs
  obtain ⟨ss', hss', hall⟩ := sectionsOf_diff (readable_of_ofText hblocks) hbuilt hd.sections hb
    (hd.supplied bs hbs)
  have hreload : Construction.sections (d.render .diff) ⟨.unlimited, true⟩ = .ok ss' :=
    (sections_eq_sectionsOf hbs).trans hss'
  refine ⟨⟨none, ss', true, ⟨.unlimited, true⟩⟩, ?_, hall.imp fun s s' hR => ?_⟩
  · rw [parse, hreload]
    rfl
  · exact ⟨hR.name, hR.parents, fun key => rel_imp (fun _ _ ha => ha.equal) (hR.values key)⟩

/-- An heir that derives a text again, and refers to what its parent derived. -/
def derivedText : Text := "[A]\nx = ($this + y)\n[B] : A\nz = $A.x\n".toList

/-- The document of `derivedText`. -/
def derived : Document :=
  ⟨none,
    [⟨['A'], [], [⟨['x'], .text ['A', 'y'], ⟨none, some (.expression "($this + y)".toList)⟩,
        some ['A'], false, false, false⟩]⟩,
      ⟨['B'], [['A']], [⟨['x'], .text ['B', 'y'],
          ⟨none, some (.expression "($this + y)".toList)⟩, some ['B'], true, false, true⟩,
        ⟨['z'], .text ['A', 'y'], ⟨none, some (.expression "$A.x".toList)⟩,
          some ['B'], false, false, false⟩]⟩],
    true, ⟨.unlimited, true⟩⟩

theorem parse_derivedText : parse derivedText ⟨.unlimited, true⟩ = .ok derived := by
  with_unfolding_all rfl

theorem render_derived :
    derived.render .diff = "[A]\nx = Ay # {($this + y)}\n\n[B] : A\nz = Ay # {$A.x}\n".toList := by
  rfl

/-- A section that is written with one property, whose expression does not read it. -/
theorem reloadable_of_single {p : Property} {raw : Text} (hw : s.written .diff = [p])
    (hl : ∀ c ∈ p.value.literal, Note.isMark c = false ∧ c ≠ '$')
    (hn : (Note.parse p.note.render).derivation = p.note.derivation)
    (hraw : p.derivation = some (.expression raw)) (hr : ∀ n, N n → ¬ Reads n raw p.key) :
    s.Reloadable N := by
  refine ⟨fun q hq => ?_, fun _ q hq => ?_, fun n hN q hq q' hq' raw' _ hraw' hread => ?_⟩
  · rw [hw] at hq
    exact List.mem_singleton.1 hq ▸ hl
  · rw [hw] at hq
    exact List.mem_singleton.1 hq ▸ hn
  · rw [hw] at hq hq'
    obtain rfl := List.mem_singleton.1 hq
    obtain rfl := List.mem_singleton.1 hq'
    obtain rfl : raw' = raw := by simpa using hraw'.symm.trans hraw
    exact absurd hread (hr n hN)

/-- The blocks of the diff text of `derived`. -/
def derivedBlocks : List Block :=
  [⟨['A'], [], 1, [⟨['x'], ['A', 'y'], some "# {($this + y)}".toList, 2⟩]⟩,
    ⟨['B'], [['A']], 4, [⟨['z'], ['A', 'y'], some "# {$A.x}".toList, 5⟩]⟩]

theorem acyclic_derivedBlocks : Order.Acyclic (derivedBlocks.map node) :=
  Order.acyclic_of_rank (fun x => if x = ['B'] then 1 else 0) (by decide +kernel)

theorem utf8Size_derived : (derived.render .diff).utf8Size ≤ Limits.greatest := by
  rw [render_derived]
  decide +kernel

theorem reloadable_derived : derived.Reloadable := by
  refine reloadable_of_acyclic parse_derivedText (fun s hs => ?_) utf8Size_derived fun bs hbs => ?_
  · simp only [derived, List.mem_cons, List.not_mem_nil, or_false] at hs
    rcases hs with rfl | rfl
    · refine reloadable_of_single rfl (by simp [Value.literal, Note.isMark]) rfl rfl ?_
      rintro n - ⟨token, ht, hthis, -⟩
      have htokens : tokens "($this + y)".toList = [thisName] := by decide +kernel
      rw [htokens] at ht
      exact hthis (List.mem_singleton.1 ht)
    · refine reloadable_of_single rfl (by simp [Value.literal, Note.isMark]) rfl rfl ?_
      rintro n - ⟨token, ht, -, hown⟩
      have htokens : tokens "$A.x".toList = [['A', '.', 'x']] := by decide +kernel
      rw [htokens] at ht
      obtain rfl := List.mem_singleton.1 ht
      have hsplit : Text.splitAt? '.' ['A', '.', 'x'] = some (['A'], ['x']) := rfl
      rw [ownKey?, hsplit] at hown
      simp at hown
  · have hblocks : Block.ofText (derived.render .diff) .unlimited = .ok derivedBlocks := by
      rw [render_derived]
      rfl
    obtain rfl := Except.ok.inj (hbs.symm.trans hblocks)
    exact acyclic_derivedBlocks

theorem parse_render_diff_derived : parse derivedText ⟨.unlimited, true⟩ = .ok derived ∧
    ∃ d', parse (derived.render .diff) ⟨.unlimited, true⟩ = .ok d' ∧
      List.Forall₂ (fun s s' => s'.name = s.name ∧ s'.parents = s.parents ∧
        ∀ key, Option.Rel (fun v' v => (v' == v) = true) (s'.value? key) (s.value? key))
        derived.sections d'.sections :=
  ⟨parse_derivedText, parse_render_diff parse_derivedText reloadable_derived utf8Size_derived⟩

/-- The literal under a key of a section, in the document of a text and in that of its diff text. -/
def reloadedLiterals (t name key : Text) : Option (Text × Text) :=
  (parse t ⟨.unlimited, true⟩).toOption.bind fun d =>
    (parse (d.render .diff) ⟨.unlimited, true⟩).toOption.bind fun d' =>
      (d.get? name key).bind fun p => (d'.get? name key).map fun p' =>
        (p.value.literal, p'.value.literal)

/-- A word is written before the text that it was derived from, and heirs derive it too early. -/
example : reloadedLiterals
    "[ntrue]\na = ($this + x)\nb = ($a - n - x)\n[nfalse] : ntrue\n".toList
    "nfalse".toList ['b'] = some ("false".toList, "true".toList) := by
  decide +kernel

end Document

end Lineage
