import Lineage.Proofs.Construction.Run
import Lineage.Proofs.Construction.Lines
import Lineage.Proofs.Construction.Unnumbered
import Lineage.Proofs.Order.Dependencies
/-!
# The order of the file

The expressions that a section holds stand on its own lines or come from its parents, so the
sections that they name are among those that the section depends on (`Builds.traced`). Hence all
that building a block looks for is among what the block depends on (`depends_of_consults`).

So blocks may stand in any order: where sections do not depend on each other in a circle, all orders
yield the same sections or none does (`sections_perm`). Limits apart, that is: they may accept one
text and reject another with the same blocks (`sections_blank_lines`).
-/
namespace Lineage.Construction

open Source Relation

/-! ## Where expressions come from -/

variable {L : Lookup} {s s' : Section} {overwrite : Bool} {d : Declaration} {p : Property}

theorem mem_references {b : Block} {x : Text} :
    x ∈ (node b).references ↔ ∃ d ∈ b.declarations, x ∈ namesIn d := by
  simp [node, Reference.mem_foldl_addName]

/-- The section depends on the sections that its expressions name, if they are none other than
itself. -/
def Traced (nodes : List Order.Node) (s : Section) : Prop :=
  ∀ raw, s.Holds raw → ∀ x ∈ Reference.namesFrom raw, Order.Known nodes x →
    ReflTransGen (Order.Depends nodes) s.name x

variable {blocks bs : List Block} {built ss final : List Section} {b : Block} {x : Text}

theorem name_ne_of_known (hread : ∀ b ∈ blocks, b.Readable) (hx : Order.Known (blocks.map node) x) :
    x ≠ [] := by
  obtain ⟨m, hm, rfl⟩ := hx
  obtain ⟨b, hb, rfl⟩ := List.mem_map.1 hm
  exact (hread b hb).name_ne

theorem depends_of_parent (hb : b ∈ blocks) {p : Text} (hp : p ∈ b.parents)
    (hk : Order.Known (blocks.map node) p) : Order.Depends (blocks.map node) b.name p :=
  ⟨hk, node b, List.mem_map_of_mem hb, rfl, .inl hp⟩

theorem depends_of_namesIn (hb : b ∈ blocks) (hd : d ∈ b.declarations) (hx : x ∈ namesIn d)
    (hk : Order.Known (blocks.map node) x) (hne : x ≠ b.name) :
    Order.Depends (blocks.map node) b.name x :=
  ⟨hk, node b, List.mem_map_of_mem hb, rfl, .inr ⟨hne, mem_references.2 ⟨d, hd, hx⟩⟩⟩

/-- The block of a section depends, directly or not, on whatever the expressions of the section
name. -/
theorem traced_of_ofBlock (hread : ∀ b ∈ blocks, b.Readable) (hb : b ∈ blocks)
    (h : ofBlock b L overwrite = .ok s) (hL : ∀ p P, L p = some P → P.name = p ∧
      Order.Known (blocks.map node) p ∧ Traced (blocks.map node) P) :
    Traced (blocks.map node) s := by
  intro raw hr x hx hk
  rw [name_of_ofBlock h]
  obtain ⟨m, hm, h⟩ := ofBlock_ok h
  rcases holds_of_declareLines h hr with hr | ⟨d, hd, m', p, hp, he⟩
  · rcases holds_of_mergeParents hm hr with ⟨q, hq, -⟩ | ⟨p, hp, P, hP, hr⟩
    · cases hq
    · obtain ⟨rfl, hkp, ht⟩ := hL p P hP
      exact .head (depends_of_parent hb hp hkp) (ht raw hr x hx hk)
  · by_cases hne : x = b.name
    · rw [hne]
    · have hin := mem_namesIn_of_property hp he hx (name_ne_of_known hread hk)
      exact .single (depends_of_namesIn hb hd hin hk hne)

/-- In a run, sections depend on those that their expressions name. -/
theorem Builds.traced (hread : ∀ b ∈ blocks, b.Readable) (h : Builds overwrite built bs final)
    (hbs : bs ⊆ blocks) (hbuilt : ∀ s ∈ built, Order.Known (blocks.map node) s.name ∧
      Traced (blocks.map node) s) :
    ∀ s ∈ final, Order.Known (blocks.map node) s.name ∧ Traced (blocks.map node) s := by
  induction h with
  | nil => exact hbuilt
  | @cons built final b bs s hs _ ih =>
    have hb : b ∈ blocks := hbs (List.mem_cons_self ..)
    refine ih (fun x hx => hbs (List.mem_cons_of_mem _ hx)) fun s' hs' => ?_
    rcases List.mem_append.1 hs' with hs' | hs'
    · exact hbuilt s' hs'
    · obtain rfl := List.mem_singleton.1 hs'
      refine ⟨⟨node b, List.mem_map_of_mem hb, (name_of_ofBlock hs).symm⟩,
        traced_of_ofBlock hread hb hs fun p P hP => ?_⟩
      obtain rfl : P.name = p := by simpa using List.find?_some hP
      exact ⟨rfl, hbuilt P (List.mem_of_find?_eq_some hP)⟩

/-- All that building a block looks for is among what the block depends on. -/
theorem depends_of_consults (hread : ∀ b ∈ blocks, b.Readable) (hb : b ∈ blocks)
    (hL : ∀ p P, L p = some P → P.name = p ∧ Order.Known (blocks.map node) p ∧
      Traced (blocks.map node) P) (hk : Order.Known (blocks.map node) x) (h : Consults b L x) :
    TransGen (Order.Depends (blocks.map node)) b.name x := by
  rcases h with hp | ⟨hne, ⟨d, hd, hx⟩ | ⟨p, hp, P, hP, raw, hr, hx⟩⟩
  · exact .single (depends_of_parent hb hp hk)
  · have hin := mem_namesIn.2 ⟨name_ne_of_known hread hk, .inl hx⟩
    exact .single (depends_of_namesIn hb hd hin hk hne)
  · obtain ⟨rfl, hkp, ht⟩ := hL p P hP
    exact .head' (depends_of_parent hb hp hkp) (ht raw hr x hx hk)

variable {bs₁ bs₂ : List Block} {ss₁ ss₂ : List Section}

/-! ## The order of construction -/

theorem arrange_split {order : List Nat} {done rest : List Block}
    (h : arrange blocks order = done ++ b :: rest) :
    ∃ o₁ i o₂, order = o₁ ++ i :: o₂ ∧ arrange blocks o₁ = done ∧ blocks[i]? = some b := by
  obtain ⟨o₁, o, rfl, h1, h⟩ := List.filterMap_eq_append_iff.1 h
  obtain ⟨l, i, o₂, rfl, hl, hi, -⟩ := List.filterMap_eq_cons_iff.1 h
  refine ⟨o₁ ++ l, i, o₂, by simp, ?_, hi⟩
  rw [arrange, List.filterMap_append, h1, List.filterMap_eq_nil_iff.2 hl, List.append_nil]

/-- Where sections do not depend on each other in a circle, blocks are built after all blocks that
they depend on. -/
theorem mem_done_of_depends {order : List Nat} {done rest : List Block} {x : Text}
    (ho : Order.construction (blocks.map node) = .ok order) (ha : Order.Acyclic (blocks.map node))
    (h : arrange blocks order = done ++ b :: rest)
    (hd : TransGen (Order.Depends (blocks.map node)) b.name x) : x ∈ done.map Block.name := by
  obtain ⟨o₁, i, o₂, rfl, rfl, hi⟩ := arrange_split h
  have hi' : (blocks.map node)[i]? = some (node b) := by simp [hi]
  have hindex := Order.indexOf?_name (Order.construction_spec ho).1 hi'
  have hknown : ∃ m ∈ blocks.map node, m.name = x := by
    cases hd with
    | single hd => exact hd.1
    | tail _ hd => exact hd.1
  obtain ⟨k, hk⟩ := Order.indexOf?_isSome hknown
  have hmem := Order.before_of_depends ho ha hd hindex hk o₁ o₂ rfl
  obtain ⟨m, hm, rfl⟩ := Order.indexOf?_eq_some hk
  rw [List.getElem?_map] at hm
  obtain ⟨b', hb', rfl⟩ := Option.map_eq_some_iff.1 hm
  exact List.mem_map.2 ⟨b', List.mem_filterMap.2 ⟨k, hmem, hb'⟩, rfl⟩

/-- The sections that a block looks for are built before it, if they have been traced. -/
theorem mem_done_of_consults {order : List Nat} {done rest : List Block} {L : Lookup} {x : Text}
    {s : Section} (hread : ∀ b ∈ blocks, b.Readable)
    (ho : Order.construction (blocks.map node) = .ok order) (ha : Order.Acyclic (blocks.map node))
    (hL : ∀ p P, L p = some P → P.name = p ∧ Order.Known (blocks.map node) p ∧
      Traced (blocks.map node) P)
    (h : arrange blocks order = done ++ b :: rest) (hx : Consults b L x) (hs : L x = some s) :
    x ∈ done.map Block.name := by
  have hmem : b ∈ blocks := (arrange_perm ho).subset (by simp [h])
  exact mem_done_of_depends ho ha h (depends_of_consults hread hmem hL (hL x s hs).2.1 hx)

/-! ## Other orders of the file -/

theorem same_of_perm (hp : (bs₁.map Block.unnumbered).Perm (bs₂.map Block.unnumbered)) :
    Order.Same (bs₁.map node) (bs₂.map node) := by
  have := hp.map node
  rw [List.map_map, List.map_map] at this
  rw [Order.Same, List.map_map, List.map_map]
  simpa only [Function.comp_def, node_unnumbered] using this

/-- Blocks in another order, and at other lines, have sections where the blocks have, and the same
ones: each block consults only what it depends on, and that is built before it in both orders. -/
theorem exists_sectionsOf (hread : ∀ b ∈ bs₁, b.Readable) (hread₂ : ∀ b ∈ bs₂, b.Readable)
    (hp : (bs₁.map Block.unnumbered).Perm (bs₂.map Block.unnumbered))
    (ha : Order.Acyclic (bs₁.map node)) (h : sectionsOf bs₁ overwrite = .ok ss₁) :
    ∃ ss₂, sectionsOf bs₂ overwrite = .ok ss₂ ∧ find ss₁ = find ss₂ := by
  obtain ⟨order₁, built, ho₁, hb, rfl⟩ := sectionsOf_ok_iff.1 h
  have hsame := same_of_perm hp
  obtain ⟨order₂, ho₂⟩ := Order.construction_ok_congr hsame ho₁
  have hp₁ := arrange_perm ho₁
  have hp₂ := arrange_perm ho₂
  have hn₁ := names_nodup_of_construction ho₁
  have hn₂ := names_nodup_of_construction ho₂
  rw [hb.find_filterMap hp₁ hn₁]
  have hname : ∀ x s, find built x = some s → s.name = x := fun x s h => by
    simpa using List.find?_some h
  -- what a block looks for is built before it
  have htraced := hb.traced hread hp₁.subset (by simp)
  have hL : ∀ p P, find built p = some P → P.name = p ∧ Order.Known (bs₂.map node) p ∧
      Traced (bs₂.map node) P := by
    intro p P hP
    obtain rfl := hname p P hP
    obtain ⟨hk, ht⟩ := htraced P (List.mem_of_find?_eq_some hP)
    refine ⟨rfl, Order.known_congr hsame ▸ hk, fun raw hr x hx hkx => ?_⟩
    rw [← Order.known_congr hsame] at hkx
    exact Order.depends_congr hsame ▸ ht raw hr x hx hkx
  have hbefore : ∀ done b rest, arrange bs₂ order₂ = done ++ b :: rest → ∀ x s,
      Consults b (find built) x → find built x = some s → x ∈ done.map Block.name :=
    fun _ _ _ hsplit _ _ hx hs =>
      mem_done_of_consults hread₂ ho₂ (ha.congr hsame) hL hsplit hx hs
  -- so it yields the section of the first run
  obtain ⟨final, hf, hall⟩ := @exists_builds _ _ (· = ·) (find built) (fun b hm => by
    have := List.mem_map_of_mem (f := Block.unnumbered) (hp₂.mem_iff.1 hm)
    obtain ⟨b₁, hb₁, he⟩ := List.mem_map.1 (hp.mem_iff.2 this)
    obtain ⟨s, hs, hof⟩ := hb.found hp₁ hn₁ hb₁
    have : b₁.unnumbered.name = b.unnumbered.name := by rw [he]
    refine ⟨s, this ▸ hs, fun M _ hM => ⟨s, ?_, rfl⟩⟩
    refine ofBlock_mono (ofBlock_unnumbered hof he) fun x o hx ho => ?_
    obtain ⟨t, ht, rfl⟩ := hM x o hx ho
    exact ht) hbefore
  refine ⟨_, sectionsOf_ok_iff.2 ⟨order₂, final, ho₂, hf, rfl⟩, ?_⟩
  rw [hf.find_filterMap hp₂ hn₂]
  have hnames : (built.map Section.name).Perm (final.map Section.name) := by
    have hp' := hp.map Block.name
    rw [List.map_map, List.map_map] at hp'
    have hnames₁ := hb.names
    have hnames₂ := hf.names
    rw [List.map_nil, List.nil_append] at hnames₁ hnames₂
    rw [hnames₁, hnames₂]
    exact (hp₁.map _).trans (hp'.trans (hp₂.map _).symm)
  exact find_eq_of_names (fun _ => hnames.mem_iff) hall

theorem sections_eq_sectionsOf {t : Text} {o : Options} (h : Block.ofText t o.limits = .ok blocks) :
    sections t o = sectionsOf blocks o.overwrite := by
  simp only [sections, h]

/-- Two texts with the same blocks, in any order and at any lines, both have sections or neither
has, and sections of one name are equal, if sections do not depend on each other in a circle and
the limits accept both texts or neither. -/
theorem sections_perm {t₁ t₂ : Text} {o : Options} (h₁ : Block.ofText t₁ .unlimited = .ok bs₁)
    (h₂ : Block.ofText t₂ .unlimited = .ok bs₂)
    (hp : (bs₁.map Block.unnumbered).Perm (bs₂.map Block.unnumbered))
    (ha : Order.Acyclic (bs₁.map node))
    (hl : (∃ bs, Block.ofText t₁ o.limits = .ok bs) ↔ ∃ bs, Block.ofText t₂ o.limits = .ok bs) :
    ((∃ ss, sections t₁ o = .ok ss) ↔ ∃ ss, sections t₂ o = .ok ss) ∧
      ∀ ss₁ ss₂, sections t₁ o = .ok ss₁ → sections t₂ o = .ok ss₂ →
        ∀ name, find ss₁ name = find ss₂ name := by
  have hread₁ := readable_of_ofText h₁
  have hread₂ := readable_of_ofText h₂
  by_cases hok : ∃ bs, Block.ofText t₁ o.limits = .ok bs
  · obtain ⟨bs, hb₁⟩ := hok
    obtain ⟨bs', hb₂⟩ := hl.1 ⟨bs, hb₁⟩
    obtain rfl := Block.ofText_limits h₁ hb₁
    obtain rfl := Block.ofText_limits h₂ hb₂
    rw [sections_eq_sectionsOf hb₁, sections_eq_sectionsOf hb₂]
    have ha₂ := ha.congr (same_of_perm hp)
    refine ⟨⟨fun ⟨ss, h⟩ => ?_, fun ⟨ss, h⟩ => ?_⟩, fun ss₁ ss₂ hs₁ hs₂ name => ?_⟩
    · obtain ⟨ss₂, h, -⟩ := exists_sectionsOf hread₁ hread₂ hp ha h
      exact ⟨ss₂, h⟩
    · obtain ⟨ss₁, h, -⟩ := exists_sectionsOf hread₂ hread₁ hp.symm ha₂ h
      exact ⟨ss₁, h⟩
    · obtain ⟨ss, h, he⟩ := exists_sectionsOf hread₁ hread₂ hp ha hs₁
      obtain rfl : ss = ss₂ := Except.ok.inj (h.symm.trans hs₂)
      rw [he]
  · have none₁ : ∀ ss, sections t₁ o ≠ .ok ss := fun ss h =>
      hok ((sections_ok h).imp fun _ h => h.1)
    have none₂ : ∀ ss, sections t₂ o ≠ .ok ss := fun ss h =>
      hok (hl.2 ((sections_ok h).imp fun _ h => h.1))
    refine ⟨⟨fun ⟨ss, h⟩ => absurd h (none₁ ss), fun ⟨ss, h⟩ => absurd h (none₂ ss)⟩, ?_⟩
    exact fun ss₁ _ h => absurd h (none₁ ss₁)

/-- The sections of `heirFirst`, the parent first. -/
def parentFirst : Text := "[A]\nx = (1 + 2)\n\n[B] : A\nv = $A.x\n".toList

theorem sections_perm_heirFirst : ∃ bs₁ bs₂, Block.ofText heirFirst .unlimited = .ok bs₁ ∧
    Block.ofText parentFirst .unlimited = .ok bs₂ ∧ Order.Acyclic (bs₁.map node) ∧
    ((∃ ss, sections heirFirst .standard = .ok ss) ↔
      ∃ ss, sections parentFirst .standard = .ok ss) ∧
      ∀ ss₁ ss₂, sections heirFirst .standard = .ok ss₁ → sections parentFirst .standard = .ok ss₂ →
        ∀ name, find ss₁ name = find ss₂ name := by
  have h₁ : Block.ofText heirFirst .unlimited = .ok
      [⟨['B'], [['A']], 1, [⟨['v'], ['$', 'A', '.', 'x'], none, 2⟩]⟩,
        ⟨['A'], [], 3, [⟨['x'], "(1 + 2)".toList, none, 4⟩]⟩] := by rfl
  have h₂ : Block.ofText parentFirst .unlimited = .ok
      [⟨['A'], [], 1, [⟨['x'], "(1 + 2)".toList, none, 2⟩]⟩,
        ⟨['B'], [['A']], 4, [⟨['v'], ['$', 'A', '.', 'x'], none, 5⟩]⟩] := by rfl
  have ha : Order.Acyclic ([(⟨['B'], [['A']], 1, [⟨['v'], ['$', 'A', '.', 'x'], none, 2⟩]⟩ : Block),
      ⟨['A'], [], 3, [⟨['x'], "(1 + 2)".toList, none, 4⟩]⟩].map node) :=
    Order.acyclic_of_rank (fun x => if x = ['B'] then 1 else 0) (by decide +kernel)
  exact ⟨_, _, h₁, h₂, ha, sections_perm h₁ h₂ (.swap ..) ha ⟨fun _ => ⟨_, h₂⟩, fun _ => ⟨_, h₁⟩⟩⟩

/-- Of two texts with one block, a limit accepts one and rejects the other, for its blank lines. -/
theorem sections_blank_lines : ∃ bs, Block.ofText "[A]\n".toList .unlimited = .ok bs ∧
    Block.ofText "[A]\n\n\n\n".toList .unlimited = .ok bs ∧ Order.Acyclic (bs.map node) ∧
    (∃ ss, sections "[A]\n".toList ⟨{ Limits.standard with fileSize := 5 }, true⟩ = .ok ss) ∧
    ¬ ∃ ss, sections "[A]\n\n\n\n".toList ⟨{ Limits.standard with fileSize := 5 }, true⟩ =
      .ok ss := by
  refine ⟨[⟨['A'], [], 1, []⟩], by rfl, by rfl,
    Order.acyclic_of_rank (fun _ => 0) (by decide +kernel), exists_of_isOk (by decide +kernel), ?_⟩
  rintro ⟨ss, h⟩
  have : (sections "[A]\n\n\n\n".toList ⟨{ Limits.standard with fileSize := 5 }, true⟩).isOk =
      false := by decide +kernel
  rw [h] at this
  cases this

end Lineage.Construction
