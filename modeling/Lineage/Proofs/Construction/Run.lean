import Lineage.Proofs.Construction.Consulted
import Lineage.Proofs.Lists
import Lineage.Proofs.Order.Construction
/-!
# Runs of construction

A run builds blocks one by one, each from the sections built before it (`Builds`). What is built
stays (`Builds.isPrefix`), and a run over all blocks in the order of construction yields their
sections (`sectionsOf_ok_iff`).

Sections are built while others are still missing, yet nothing that a block looked up changes
later: building it once more from the finished sections yields the same section
(`sections_fixed_point`).
-/
namespace Lineage

theorem exists_of_isOk {ε α : Type} {x : Except ε α} (h : x.isOk = true) : ∃ a, x = .ok a := by
  cases x with
  | error e => cases h
  | ok a => exact ⟨a, rfl⟩

theorem exists_ok_of_any {ε α : Type} {x : Except ε α} {p : α → Bool}
    (h : x.toOption.any p = true) : ∃ a, x = .ok a ∧ p a = true := by
  cases x with
  | error e => cases h
  | ok a => exact ⟨a, rfl, h⟩

theorem eq_of_toOption_eq {ε α : Type} {x y : Except ε α} (h : x.toOption = y.toOption)
    (hx : x.isOk = true) : x = y := by
  cases x with
  | error e => cases hx
  | ok a =>
    cases y with
    | error e => cases h
    | ok b => rw [Option.some.inj h]

namespace Construction

open Source

variable {blocks bs bs₁ bs₂ : List Block} {overwrite : Bool} {built ss final : List Section}

/-! ## Finding sections -/

theorem find_eq_some_iff (hn : (ss.map Section.name).Nodup) {x : Text} {s : Section} :
    find ss x = some s ↔ s ∈ ss ∧ s.name = x := by
  constructor
  · intro h
    exact ⟨List.mem_of_find?_eq_some h, by simpa using List.find?_some h⟩
  · rintro ⟨hs, rfl⟩
    cases h : find ss s.name with
    | none => simpa using List.find?_eq_none.1 h s hs
    | some s' =>
      have hs' := List.mem_of_find?_eq_some h
      have hname : s'.name = s.name := by simpa using List.find?_some h
      rw [List.inj_on_of_nodup_map hn hs' hs hname]

theorem find_of_isPrefix (h : built <+: final) {x : Text} {s : Section}
    (hs : find built x = some s) : find final x = some s := by
  obtain ⟨rest, rfl⟩ := h
  rw [find, List.find?_append, ← find, hs, Option.some_or]

theorem find_isSome_iff {x : Text} : (∃ s, find ss x = some s) ↔ x ∈ ss.map Section.name := by
  rw [← Option.isSome_iff_exists, find, List.find?_isSome]
  simp

/-- Sections with different names are found alike wherever they stand. -/
theorem find_congr {ss' : List Section} (hn : (ss.map Section.name).Nodup)
    (hn' : (ss'.map Section.name).Nodup) (h : ∀ s, s ∈ ss ↔ s ∈ ss') : find ss = find ss' := by
  funext x
  refine Option.ext fun s => ?_
  rw [find_eq_some_iff hn, find_eq_some_iff hn', h]

/-- Lists with the same names find the same if what they find under a name is one section. -/
theorem find_eq_of_names {ss' : List Section}
    (hn : ∀ x, x ∈ ss.map Section.name ↔ x ∈ ss'.map Section.name)
    (hall : ∀ x t s, find ss' x = some t → find ss x = some s → t = s) : find ss = find ss' := by
  funext x
  cases hs : find ss x with
  | none =>
    cases ht : find ss' x with
    | none => rfl
    | some t =>
      obtain ⟨s, hs'⟩ := find_isSome_iff.2 ((hn x).2 (find_isSome_iff.1 ⟨t, ht⟩))
      cases hs.symm.trans hs'
  | some s =>
    obtain ⟨t, ht⟩ := find_isSome_iff.2 ((hn x).1 (find_isSome_iff.1 ⟨s, hs⟩))
    rw [ht, hall x t s ht hs]

/-! ## Runs -/

/-- Building the blocks one by one leads from some built sections to others. -/
inductive Builds (overwrite : Bool) : List Section → List Block → List Section → Prop where
  | nil {built : List Section} : Builds overwrite built [] built
  | cons {built final : List Section} {b : Block} {bs : List Block} {s : Section} :
      ofBlock b (find built) overwrite = .ok s → Builds overwrite (built ++ [s]) bs final →
        Builds overwrite built (b :: bs) final

theorem builds_cons_iff {b : Block} : Builds overwrite built (b :: bs) final ↔
    ∃ s, ofBlock b (find built) overwrite = .ok s ∧ Builds overwrite (built ++ [s]) bs final := by
  constructor
  · rintro (_ | ⟨hs, h⟩)
    exact ⟨_, hs, h⟩
  · rintro ⟨s, hs, h⟩
    exact .cons hs h

/-- The blocks in the given order. -/
def arrange (blocks : List Block) (order : List Nat) : List Block := order.filterMap (blocks[·]?)

/-- Numbers of blocks are built in their order, where those out of range are passed over. -/
theorem buildInOrder_ok_iff {order : List Nat} :
    buildInOrder blocks overwrite built order = .ok final ↔
      Builds overwrite built (arrange blocks order) final := by
  induction order generalizing built with
  | nil =>
    constructor
    · intro h
      cases h
      exact .nil
    · rintro ⟨⟩
      rfl
  | cons i order ih =>
    cases hb : blocks[i]? with
    | none => simp [buildInOrder, arrange, hb, ih]
    | some b =>
      rw [arrange, List.filterMap_cons_some hb, ← arrange, builds_cons_iff]
      cases hs : ofBlock b (find built) overwrite with
      | error f => simp [buildInOrder, hb, hs]
      | ok s => simp [buildInOrder, hb, hs, ih]

theorem Builds.isPrefix (h : Builds overwrite built bs final) : built <+: final := by
  induction h with
  | nil => exact List.prefix_rfl
  | cons _ _ ih => exact (List.prefix_append ..).trans ih

theorem Builds.names (h : Builds overwrite built bs final) :
    final.map Section.name = built.map Section.name ++ bs.map Block.name := by
  induction h with
  | nil => simp
  | cons hs _ ih => simp [ih, name_of_ofBlock hs]

/-- A run over some blocks and then others is two runs. -/
theorem builds_append_iff : Builds overwrite built (bs₁ ++ bs₂) final ↔
    ∃ mid, Builds overwrite built bs₁ mid ∧ Builds overwrite mid bs₂ final := by
  induction bs₁ generalizing built with
  | nil =>
    constructor
    · exact fun h => ⟨built, .nil, h⟩
    · rintro ⟨_, ⟨⟩, h⟩
      exact h
  | cons b bs₁ ih =>
    constructor
    · rintro (_ | ⟨hs, h⟩)
      obtain ⟨mid, h1, h2⟩ := ih.1 h
      exact ⟨mid, .cons hs h1, h2⟩
    · rintro ⟨mid, _ | ⟨hs, h1⟩, h2⟩
      exact .cons hs (ih.2 ⟨mid, h1, h2⟩)

/-- What holds of every section of a run that is built from sections of which it holds, holds of
all. -/
theorem Builds.forall {Q : Section → Prop} (h : Builds overwrite built bs final)
    (hbuilt : ∀ s ∈ built, Q s) (hQ : ∀ b ∈ bs, ∀ L, ∀ s ∈ final,
      (∀ x o, L x = some o → o.name = x ∧ Q o) → ofBlock b L overwrite = .ok s → Q s) :
    ∀ s ∈ final, Q s := by
  induction h with
  | nil => exact hbuilt
  | @cons built final b bs s hs h ih =>
    refine ih (fun s' hs' => ?_) fun b' hb' => hQ b' (List.mem_cons_of_mem _ hb')
    rcases List.mem_append.1 hs' with hs' | hs'
    · exact hbuilt s' hs'
    · obtain rfl := List.mem_singleton.1 hs'
      refine hQ b (List.mem_cons_self ..) _ _ (h.isPrefix.subset (by simp)) (fun x o ho => ?_) hs
      exact ⟨by simpa using List.find?_some ho, hbuilt o (List.mem_of_find?_eq_some ho)⟩

/-- A run succeeds if each block yields a section like the one that `L` finds, provided that such
sections are found for what it consults, and what it consults is built before it. -/
theorem exists_builds {R : Section → Section → Prop} {L : Lookup}
    (hstep : ∀ b ∈ bs, ∃ s, L b.name = some s ∧ ∀ M, (∀ x t, M x = some t → t.name = x) →
      (∀ x o, Consults b L x → L x = some o → ∃ t, M x = some t ∧ R t o) →
        ∃ t, ofBlock b M overwrite = .ok t ∧ R t s)
    (hbefore : ∀ done b rest, bs = done ++ b :: rest → ∀ x s, Consults b L x → L x = some s →
      x ∈ done.map Block.name) :
    ∃ final, Builds overwrite [] bs final ∧
      ∀ x t s, find final x = some t → L x = some s → R t s := by
  suffices h : ∀ todo done built, bs = done ++ todo →
      built.map Section.name = done.map Block.name →
      (∀ x t s, find built x = some t → L x = some s → R t s) →
      ∃ final, Builds overwrite built todo final ∧
        ∀ x t s, find final x = some t → L x = some s → R t s from
    h bs [] [] rfl rfl (by simp [find])
  intro todo
  induction todo with
  | nil => exact fun done built _ _ hb => ⟨built, .nil, hb⟩
  | cons b todo ih =>
    rintro done built rfl hnames hbuilt
    obtain ⟨s, hs, hb⟩ := hstep b (by simp)
    obtain ⟨t, ht, hR⟩ := hb (find built) (fun x t hx => by simpa using List.find?_some hx)
      fun x o hx ho => by
        obtain ⟨t, hf⟩ := find_isSome_iff.2 (hnames ▸ hbefore done b todo rfl x o hx ho)
        exact ⟨t, hf, hbuilt x t o hf ho⟩
    have hname := name_of_ofBlock ht
    obtain ⟨final, hf, hall⟩ := ih (done ++ [b]) (built ++ [t]) (by simp) (by simp [hnames, hname])
      fun x t' o hx ho => by
        rw [find, List.find?_append, Option.or_eq_some_iff] at hx
        rcases hx with hx | ⟨-, hx⟩
        · exact hbuilt x t' o hx ho
        · obtain rfl := List.mem_singleton.1 (List.mem_of_find?_eq_some hx)
          obtain rfl : t'.name = x := by simpa using List.find?_some hx
          rw [hname, hs] at ho
          exact Option.some.inj ho ▸ hR
    exact ⟨final, .cons ht hf, hall⟩

/-! ## All blocks -/

theorem filterMap_getElem?_range {α : Type} (l : List α) :
    (List.range l.length).filterMap (l[·]?) = l := by
  induction l with
  | nil => rfl
  | cons a l ih =>
    rw [List.length_cons, List.range_succ_eq_map, List.filterMap_cons, List.filterMap_map]
    simpa [Function.comp_def] using ih

theorem arrange_perm {order : List Nat} (h : Order.construction (blocks.map node) = .ok order) :
    (arrange blocks order).Perm blocks := by
  have := (Order.perm_of_construction h).filterMap (blocks[·]?)
  rwa [List.length_map, filterMap_getElem?_range] at this

/-- A run over all blocks, from nothing, whose sections are then put in the order of the blocks. -/
theorem sectionsOf_ok_iff : sectionsOf blocks overwrite = .ok ss ↔
    ∃ order built, Order.construction (blocks.map node) = .ok order ∧
      Builds overwrite [] (arrange blocks order) built ∧
      ss = blocks.filterMap fun b => find built b.name := by
  unfold sectionsOf
  cases Order.construction (blocks.map node) with
  | error f => simp
  | ok order =>
    cases hb : buildInOrder blocks overwrite [] order with
    | error f =>
      simp only [Except.map, reduceCtorEq, Except.ok.injEq, exists_and_left, exists_eq_left',
        false_iff, not_exists, not_and, ← buildInOrder_ok_iff, hb]
      simp
    | ok built =>
      simp only [Except.map, Except.ok.injEq, exists_and_left, exists_eq_left',
        ← buildInOrder_ok_iff, hb, eq_comm]

theorem names_nodup_of_construction {order : List Nat}
    (h : Order.construction (blocks.map node) = .ok order) : (blocks.map Block.name).Nodup := by
  have := (Order.construction_spec h).1
  rwa [List.map_map] at this

/-! ## Finished sections -/

/-- Each section is found by the name of its block, and is what the block yields where all of the
sections are found. -/
def Finished (overwrite : Bool) (blocks : List Block) (ss : List Section) : Prop :=
  List.Forall₂ (fun b s => find ss b.name = some s ∧ ofBlock b (find ss) overwrite = .ok s)
    blocks ss

theorem Finished.names (h : Finished overwrite blocks ss) :
    ss.map Section.name = blocks.map Block.name :=
  map_eq_of_forall₂ (h.imp fun _ _ hs => name_of_ofBlock hs.2)

/-- A block that was built in a run is built alike from what the run has built at its end. -/
theorem Builds.ofBlock_final (h : Builds overwrite built bs final) {b : Block} (hb : b ∈ bs) :
    ∃ s ∈ final, ofBlock b (find final) overwrite = .ok s := by
  obtain ⟨l, r, rfl⟩ := List.append_of_mem hb
  obtain ⟨mid, -, h⟩ := builds_append_iff.1 h
  obtain ⟨s, hs, h⟩ := builds_cons_iff.1 h
  refine ⟨s, h.isPrefix.subset (by simp), ofBlock_mono hs fun x s' _ hx => ?_⟩
  exact find_of_isPrefix ((List.prefix_append ..).trans h.isPrefix) hx

/-- In a run over all blocks, every block finds its section at the end. -/
theorem Builds.found (h : Builds overwrite [] bs final) (hp : bs.Perm blocks)
    (hn : (blocks.map Block.name).Nodup) {b : Block} (hb : b ∈ blocks) :
    ∃ s, find final b.name = some s ∧ ofBlock b (find final) overwrite = .ok s := by
  have hnames : final.map Section.name = bs.map Block.name := by simpa using h.names
  obtain ⟨s, hs, he⟩ := h.ofBlock_final (hp.mem_iff.2 hb)
  have hfinal : (final.map Section.name).Nodup := hnames ▸ (hp.map _).nodup_iff.2 hn
  exact ⟨s, (find_eq_some_iff hfinal).2 ⟨hs, name_of_ofBlock he⟩, he⟩

/-- Sections in the order of the file are those of the run. -/
theorem Builds.mem_filterMap (h : Builds overwrite [] bs final) (hp : bs.Perm blocks)
    (hn : (blocks.map Block.name).Nodup) {s : Section} :
    (s ∈ blocks.filterMap fun b => find final b.name) ↔ s ∈ final := by
  have hnames : final.map Section.name = bs.map Block.name := by simpa using h.names
  have hfinal : (final.map Section.name).Nodup := hnames ▸ (hp.map _).nodup_iff.2 hn
  rw [List.mem_filterMap]
  constructor
  · rintro ⟨b, -, hs⟩
    exact ((find_eq_some_iff hfinal).1 hs).1
  · intro hs
    obtain ⟨b, hb, hbs⟩ := List.mem_map.1 (hnames ▸ List.mem_map_of_mem hs)
    exact ⟨b, hp.mem_iff.1 hb, (find_eq_some_iff hfinal).2 ⟨hs, hbs.symm⟩⟩

/-- Putting the sections of a run in the order of the file changes nothing in finding them. -/
theorem Builds.find_filterMap (h : Builds overwrite [] bs final) (hp : bs.Perm blocks)
    (hn : (blocks.map Block.name).Nodup) :
    find (blocks.filterMap fun b => find final b.name) = find final := by
  have hnames : final.map Section.name = bs.map Block.name := by simpa using h.names
  have hfinal : (final.map Section.name).Nodup := hnames ▸ (hp.map _).nodup_iff.2 hn
  have hall : List.Forall₂ (fun b s => s.name = b.name) blocks
      (blocks.filterMap fun b => find final b.name) := by
    refine forall₂_filterMap fun b hb => ?_
    obtain ⟨s, hs, he⟩ := h.found hp hn hb
    exact ⟨s, hs, name_of_ofBlock he⟩
  exact find_congr (by rwa [map_eq_of_forall₂ hall]) hfinal fun s => h.mem_filterMap hp hn

/-- Blocks that were built in any order yield finished sections. -/
theorem Builds.finished (h : Builds overwrite [] bs final) (hp : bs.Perm blocks)
    (hn : (blocks.map Block.name).Nodup) :
    Finished overwrite blocks (blocks.filterMap fun b => find final b.name) := by
  rw [Finished, h.find_filterMap hp hn]
  refine forall₂_filterMap fun b hb => ?_
  obtain ⟨s, hs, he⟩ := h.found hp hn hb
  exact ⟨s, hs, hs, he⟩

theorem finished_of_sectionsOf (h : sectionsOf blocks overwrite = .ok ss) :
    Finished overwrite blocks ss := by
  obtain ⟨order, built, ho, hb, rfl⟩ := sectionsOf_ok_iff.1 h
  exact hb.finished (arrange_perm ho) (names_nodup_of_construction ho)

theorem sections_ok {t : Text} {o : Options} (h : sections t o = .ok ss) :
    ∃ blocks, Block.ofText t o.limits = .ok blocks ∧ sectionsOf blocks o.overwrite = .ok ss := by
  unfold sections at h
  split at h
  · cases h
  · next blocks hb => exact ⟨blocks, hb, h⟩

/-- Building a block once more from the finished sections of a text yields its section. -/
theorem sections_fixed_point {t : Text} {o : Options} (h : sections t o = .ok ss) :
    ∃ blocks, Block.ofText t o.limits = .ok blocks ∧
      List.Forall₂ (fun b s => s.name = b.name ∧ find ss b.name = some s ∧
        ofBlock b (find ss) o.overwrite = .ok s) blocks ss := by
  obtain ⟨blocks, hb, h⟩ := sections_ok h
  exact ⟨blocks, hb, (finished_of_sectionsOf h).imp fun _ _ h => ⟨name_of_ofBlock h.2, h⟩⟩

/-- An heir that stands above its parent and refers to it. -/
def heirFirst : Text := "[B] : A\nv = $A.x\n[A]\nx = (1 + 2)\n".toList

theorem sections_fixed_point_heirFirst : ∃ ss blocks, sections heirFirst .standard = .ok ss ∧
    Block.ofText heirFirst Options.standard.limits = .ok blocks ∧
      List.Forall₂ (fun b s => s.name = b.name ∧ find ss b.name = some s ∧
        ofBlock b (find ss) Options.standard.overwrite = .ok s) blocks ss := by
  obtain ⟨ss, h⟩ := exists_of_isOk (x := sections heirFirst .standard) (by decide +kernel)
  obtain ⟨blocks, hb, h'⟩ := sections_fixed_point h
  exact ⟨ss, blocks, h, hb, h'⟩

end Construction

end Lineage
