import Lineage.Proofs.Construction.FileOrder
import Lineage.Proofs.Construction.Reloaded
/-!
# Blocks that find what they consult

An heir consults what the expressions of its ancestors name. Each of these is on a line that some
ancestor is written with (`written_of_holds`), so where written blocks do not depend on each other
in a circle, they are built after all that they consult (`supplied_of_acyclic`).
-/
namespace Lineage

open Source Section Reference Construction Relation

namespace Document

/-- Among the sections, the one named `x` has a parent named `y`. -/
def Inherits (ss : List Section) (x y : Text) : Prop := ∃ s ∈ ss, s.name = x ∧ y ∈ s.parents

/-- The section named `n` inherits from the one named `x`, directly or by way of others. -/
def Heir (ss : List Section) (x n : Text) : Prop := TransGen (Inherits ss) n x

/-- Blocks are built after the sections that they consult. -/
def Supplied (bs : List Block) (L : Lookup) : Prop :=
  ∀ order, Order.construction (bs.map node) = .ok order →
    ∀ done b rest, arrange bs order = done ++ b :: rest →
      ∀ x s, Consults b L x → L x = some s → x ∈ done.map Block.name

variable {ss final : List Section} {s u : Section} {blocks bs : List Block} {b : Block}
  {raw x : Text} {m : Mode} {N : Text → Prop}

theorem name_of_find {x : Text} (h : find ss x = some s) : s.name = x := by
  simpa using List.find?_some h

/-! ## Sections of a text -/

/-- The section comes from a readable block, and other sections are found by their names. -/
structure Sourced (L : Lookup) (s : Section) : Prop where
  found : L s.name = some s
  line : s.OneLine
  block : ∃ b, b.Readable ∧ ofBlock b L true = .ok s

theorem sourced_of_sectionsOf {blocks : List Block} (hread : ∀ b ∈ blocks, b.Readable)
    (h : sectionsOf blocks true = .ok ss) : ∀ s ∈ ss, Sourced (find ss) s := by
  intro s hs
  have hf := finished_of_sectionsOf h
  obtain ⟨b, hb, hfound, hof⟩ := exists_right_of_forall₂ hf.flip hs
  exact ⟨name_of_ofBlock hof ▸ hfound, oneLine_of_sectionsOf hread h s hs, b, hread b hb, hof⟩

theorem Sourced.shape (h : Sourced (find ss) s) :
    ∃ b m ps, b.Readable ∧ Shape (find ss) b m ps s := by
  obtain ⟨b, hb, hof⟩ := h.block
  obtain ⟨m, ps, hshape⟩ := ofBlock_shape hof fun _ _ => name_of_find
  exact ⟨b, m, ps, hb, hshape⟩

/-- A section with the header of a built one is written as a block whose header is told. -/
theorem titled_block_of (h : Sourced (find ss) s) (hn : u.name = s.name)
    (hp : u.parents = s.parents) : (u.block m).Titled := by
  obtain ⟨b, _, ps, hb, hshape⟩ := h.shape
  have hname : (u.block m).name = b.name := hn.trans hshape.name
  refine ⟨hname ▸ hb.name_ne, hname ▸ hb.name_trim, hname ▸ hb.name_chars, fun x hx => ?_⟩
  have hmem : x ∈ u.parents := by
    cases m with
    | full => cases hx
    | diff => exact hx
  rw [hp, hshape.parents] at hmem
  exact hb.parents x hmem

/-- A reloadable section is written as a block that is read back as it is. -/
theorem readable_block_diff (h : Sourced (find ss) s) (hs : s.Reloadable N) :
    (s.block .diff).Readable := by
  obtain ⟨b, m, ps, hb, hshape⟩ := h.shape
  refine ⟨titled_block_of h rfl rfl, fun d hd => ?_⟩
  obtain ⟨p, hp, rfl⟩ := List.mem_map.1 hd
  have hline := (h.line.literals p (mem_written_diff.1 hp).1).line
  have hmark : ∀ c ∈ p.value.literal, Note.isMark c = false := fun c hc =>
    (hs.literal p hp c hc).1
  obtain ⟨d, hdb, m', q, -, hq, rfl⟩ := hshape.declared_of_written hp
  exact (Property.printable_of_property (hb.declarations d hdb) hq hmark hline).declaration

/-! ## Written expressions -/

/-- The section, or one that it inherits from, is written with the expression. -/
def HasWritten (ss : List Section) (s : Section) (raw : Text) : Prop :=
  ∃ u ∈ ss, ReflTransGen (Inherits ss) s.name u.name ∧
    ∃ p ∈ u.written .diff, p.derivation = some (.expression raw)

/-- An expression that a section holds is written there or at one that it inherits from. -/
theorem builds_written (h : Builds true [] bs final) :
    ∀ s ∈ final, ∀ raw, s.Holds raw → HasWritten final s raw := by
  refine h.forall (by simp) fun b _ L s hs hL hof raw hraw => ?_
  obtain ⟨m, ps, hshape⟩ := ofBlock_shape hof fun x o ho => (hL x o ho).1
  obtain ⟨p, hp, he⟩ := hraw
  rw [hshape.properties] at hp
  rcases List.mem_append.1 hp with hp | hp
  · rcases holds_of_mergeParents hshape.merged ⟨p, (List.mem_filter.1 hp).1, he⟩ with hr | hr
    · obtain ⟨q, ⟨⟩, -⟩ := hr
    · obtain ⟨q, hq, P, hP, hr⟩ := hr
      obtain ⟨rfl, hQ⟩ := hL q P hP
      obtain ⟨u, hu, hpath, hw⟩ := hQ raw hr
      exact ⟨u, hu, .head ⟨s, hs, rfl, hshape.parents ▸ hq⟩ hpath, hw⟩
  · exact ⟨s, hs, .refl, p, hshape.written_perm.mem_iff.2 hp, he⟩

theorem written_of_holds (h : sectionsOf blocks true = .ok ss) :
    ∀ s ∈ ss, ∀ raw, s.Holds raw → HasWritten ss s raw := by
  obtain ⟨order, built, ho, hb, rfl⟩ := sectionsOf_ok_iff.1 h
  have hmem : ∀ s, (s ∈ blocks.filterMap fun b => find built b.name) ↔ s ∈ built := fun s =>
    hb.mem_filterMap (arrange_perm ho) (names_nodup_of_construction ho)
  intro s hs raw hr
  obtain ⟨u, hu, hpath, hw⟩ := builds_written hb s ((hmem s).1 hs) raw hr
  refine ⟨u, (hmem u).2 hu, ReflTransGen.mono (fun x y hi => ?_) _ _ hpath, hw⟩
  obtain ⟨o, ho, hname, hy⟩ := hi
  exact ⟨o, (hmem o).2 ho, hname, hy⟩

/-! ## Dependencies of written blocks -/

/-- The blocks, apart from their lines, are those that the sections are written as. -/
def Prints (ss : List Section) (bs : List Block) : Prop :=
  bs.map Block.unnumbered = (ss.map (Section.block .diff)).map Block.unnumbered

theorem Prints.forall₂ (h : Prints ss bs) : List.Forall₂
    (fun b s => s ∈ ss ∧ b.unnumbered = (s.block .diff).unnumbered) bs ss := by
  rw [Prints, List.map_map] at h
  exact forall₂_of_map_eq h

theorem Prints.exists_section (h : Prints ss bs) (hb : b ∈ bs) :
    ∃ s ∈ ss, b.unnumbered = (s.block .diff).unnumbered := by
  obtain ⟨s, hs, -, he⟩ := exists_right_of_forall₂ h.forall₂ hb
  exact ⟨s, hs, he⟩

theorem Prints.exists_block (h : Prints ss bs) (hs : s ∈ ss) :
    ∃ b ∈ bs, b.unnumbered = (s.block .diff).unnumbered := by
  obtain ⟨b, hb, -, he⟩ := exists_right_of_forall₂ h.forall₂.flip hs
  exact ⟨b, hb, he⟩

theorem name_of_unnumbered (h : b.unnumbered = (s.block .diff).unnumbered) : b.name = s.name :=
  congrArg Block.name h

theorem parents_of_unnumbered (h : b.unnumbered = (s.block .diff).unnumbered) :
    b.parents = s.parents :=
  congrArg Block.parents h

theorem Prints.known (h : Prints ss bs) (hx : find ss x = some s) :
    Order.Known (bs.map node) x := by
  obtain ⟨b, hb, he⟩ := h.exists_block (List.mem_of_find?_eq_some hx)
  exact ⟨node b, List.mem_map_of_mem hb, (name_of_unnumbered he).trans (name_of_find hx)⟩

theorem Prints.depends_of_inherits (h : Prints ss bs) {order : List Nat}
    (ho : Order.construction (bs.map node) = .ok order) {x y : Text} (hi : Inherits ss x y) :
    Order.Depends (bs.map node) x y := by
  obtain ⟨s, hs, rfl, hy⟩ := hi
  obtain ⟨b, hb, he⟩ := h.exists_block hs
  have hyb : y ∈ b.parents := parents_of_unnumbered he ▸ hy
  obtain ⟨-, hp, -⟩ := Order.construction_ok_iff.1 ⟨order, ho⟩
  exact name_of_unnumbered he ▸
    depends_of_parent hb hyb (hp (node b) (List.mem_map_of_mem hb) y hyb)

theorem mem_namesIn_of_written (h : Sourced (find ss) s) (hs : s.Reloadable N) (hN : ∃ n, N n)
    {p : Property} (hp : p ∈ s.written .diff) (he : p.derivation = some (.expression raw))
    (hx : x ∈ namesFrom raw) (hne : x ≠ []) : x ∈ namesIn p.declaration := by
  obtain ⟨b, m, ps, hb, hshape⟩ := h.shape
  have hsettled := settled_of_declaredBy (hshape.declared_of_written hp)
  have hproperty := Property.property_reread hsettled
    (fun hm => (hs.literal p hp _ hm).2 rfl) s (find ss)
  exact mem_namesIn_of_property hproperty
    ((Property.derivation_reread hsettled (hs.note hN p hp)).trans he) hx hne

/-- The block of a section depends on what the lines name that the section is written with. -/
theorem Prints.depends_of_written (h : Prints ss bs) (hs : s ∈ ss) {p : Property}
    (hp : p ∈ s.written .diff) (hx : x ∈ namesIn p.declaration)
    (hk : Order.Known (bs.map node) x) : ReflTransGen (Order.Depends (bs.map node)) s.name x := by
  obtain ⟨b, hb, he⟩ := h.exists_block hs
  have hd : b.declarations.map Declaration.unnumbered =
      ((s.written .diff).map Property.declaration).map Declaration.unnumbered :=
    congrArg Block.declarations he
  have hm := List.mem_map_of_mem (f := Declaration.unnumbered)
    (List.mem_map_of_mem (f := Property.declaration) hp)
  obtain ⟨d, hdb, hdp⟩ := List.mem_map.1 (hd ▸ hm)
  have hxd : x ∈ namesIn d := by
    have := congrArg namesIn hdp
    exact this ▸ hx
  rw [← name_of_unnumbered he]
  by_cases hne : x = b.name
  · rw [hne]
  · exact .single (depends_of_namesIn hb hdb hxd hk hne)

/-- Blocks that do not depend on each other in a circle are built after what they consult, if they
depend on what the expressions of their parents name. -/
theorem supplied_of_traced {L : Lookup} (hread : ∀ b ∈ bs, b.Readable)
    (ha : Order.Acyclic (bs.map node))
    (hk : ∀ x s, L x = some s → s.name = x ∧ Order.Known (bs.map node) x)
    (ht : ∀ b ∈ bs, ∀ p ∈ b.parents, ∀ P, L p = some P → Traced (bs.map node) P) :
    Supplied bs L := by
  intro order ho done b rest hsplit x o hx hfound
  have hbm : b ∈ bs := (arrange_perm ho).subset (by simp [hsplit])
  obtain ⟨-, hkx⟩ := hk x o hfound
  have hne := name_ne_of_known hread hkx
  refine mem_done_of_depends ho ha hsplit ?_
  rcases hx with hp | ⟨hxb, ⟨d, hd, hx⟩ | ⟨p, hp, P, hP, raw, hr, hx⟩⟩
  · exact .single (depends_of_parent hbm hp hkx)
  · exact .single (depends_of_namesIn hbm hd (mem_namesIn.2 ⟨hne, .inl hx⟩) hkx hxb)
  · obtain ⟨hname, hkp⟩ := hk p P hP
    exact .head' (depends_of_parent hbm hp hkp) (hname ▸ ht b hbm p hp P hP raw hr x hx hkx)

/-- Where the blocks that a text is written as do not depend on each other in a circle, they are
built after what they consult. -/
theorem supplied_of_acyclic (hread : ∀ b ∈ blocks, b.Readable) (hread' : ∀ b ∈ bs, b.Readable)
    (h : sectionsOf blocks true = .ok ss) (hs : ∀ s ∈ ss, s.Reloadable (Heir ss s.name))
    (hb : Prints ss bs) (ha : Order.Acyclic (bs.map node)) : Supplied bs (find ss) := by
  intro order ho
  refine supplied_of_traced hread' ha (fun x o hx => ⟨name_of_find hx, hb.known hx⟩) ?_ order ho
  intro b hbm p hp P hP raw hr x hx hk
  -- the expression is written at an ancestor, which the parent depends on
  obtain ⟨u, hu, hpath, q, hq, he⟩ := written_of_holds h P (List.mem_of_find?_eq_some hP) raw hr
  obtain ⟨s, hsm, hbs⟩ := hb.exists_section hbm
  have hstep : Inherits ss b.name P.name :=
    ⟨s, hsm, (name_of_unnumbered hbs).symm, parents_of_unnumbered hbs ▸ name_of_find hP ▸ hp⟩
  have hin := mem_namesIn_of_written (sourced_of_sectionsOf hread h u hu) (hs u hu)
    ⟨b.name, .head' hstep hpath⟩ hq he hx (name_ne_of_known hread' hk)
  exact (ReflTransGen.mono (fun y z => hb.depends_of_inherits ho) _ _ hpath).trans
    (hb.depends_of_written hu hq hin hk)

end Document

end Lineage
