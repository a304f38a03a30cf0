import Lineage.Proofs.Construction.FileOrder
import Lineage.Proofs.Document.Results
import Lineage.Proofs.Property.Reread
import Lineage.Proofs.Reference.Cut
import Lineage.Proofs.Section.Call
/-!
# Runs that stop

A value is resolved and then, if it is an expression, evaluated. The one fails for an unknown
reference only, the other for a malformed expression only. So does deriving a value again, and with
it a merge that may override: its fault has no place yet (`underived_of_inheritWith`).

A run stops at the first block that cannot be built (`exists_of_buildInOrder_error`). Its parents
were built before (`mem_done_of_parent`), so what stops it is a value that cannot be derived, on one
of its lines or on merging a parent, or a key that may not be declared again (`Stops`). Once a text
is split into blocks and the blocks are ordered, reading it fails at such a block, and the fault
says where it arose (`parse_stopped`).
-/
namespace Lineage

/-- A value could not be derived, for an unknown reference or a malformed expression. -/
def Cause.Underived (c : Cause) : Prop := c.kind = .unknownReference ∨ c.kind = .malformedExpression

/-- The fault of a value that could not be derived, at a place not known yet. -/
def Fault.Underived (f : Fault) : Prop := ∃ c : Cause, c.Underived ∧ f = .of c

theorem Reference.underived_of_resolve {raw : Text} {a : Note} {s : Section} {L : Lookup}
    {c : Cause} (h : resolve raw a s L = .error c) : c.Underived :=
  .inl (kind_of_resolve h)

theorem Cause.Underived.expression (failure : Expression.Failure) :
    (Cause.expression failure).Underived :=
  .inr rfl

namespace Section

variable {s parent : Section} {L : Lookup} {f : Fault} {p : Property} {name key raw : Text}

theorem underived_of_valueOfExpression {note : Note}
    (h : s.valueOfExpression raw note L = .error f) : f.Underived := by
  unfold valueOfExpression at h
  split at h
  · next c hc =>
    cases h
    exact ⟨c, Reference.underived_of_resolve hc, rfl⟩
  · split at h
    · next failure _ =>
      cases h
      exact ⟨_, .expression failure, rfl⟩
    · cases h

theorem underived_of_copyValue (h : s.copyValue name L p = .error f) : f.Underived := by
  unfold copyValue at h
  split at h
  · cases h
  · cases h
  · exact underived_of_valueOfExpression h

theorem underived_of_rederive (h : s.rederive name key L = .error f) : f.Underived := by
  obtain ⟨p, -, -, hv⟩ := copyValue_of_rederive_error h
  exact underived_of_copyValue hv

/-- A merge that may override fails at a value only. -/
theorem underived_of_inheritWith (h : (s.inheritWith parent true L).toExcept = .error f) :
    f.Underived := by
  have hresult : (s.inheritWith parent true L).result = .error f := by
    unfold Attempt.toExcept at h
    split at h
    · cases h
    · next hg => rw [hg, Except.error.inj h]
  -- a repeated key is no fault here, so a copy could not be derived again
  cases halfMerged_of_error hresult with
  | repeated _ hforbidden => cases hforbidden
  | underived _ _ _ _ _ _ _ _ hfault => exact underived_of_rederive hfault

end Section

namespace Construction

open Source Section

variable {L : Lookup} {s : Section} {f : Fault} {b : Block} {d : Declaration}
  {ds : List Declaration} {ps : List Text} {line : Nat} {overwrite : Bool}

/-! ## Merging and declaring -/

/-- Merging stops at a parent that is not found, or at a value that cannot be derived again. -/
theorem stopped_of_mergeParents (h : mergeParents line L s ps = .error f) :
    (∃ p ∈ ps, L p = none) ∨ ps ≠ [] ∧ ∃ g : Fault, g.Underived ∧ f = g.atLine line := by
  induction ps generalizing s with
  | nil => cases h
  | cons p ps ih =>
    unfold mergeParents at h
    split at h
    · next hp => exact .inl ⟨p, by simp, hp⟩
    · split at h
      · next g hg =>
        cases h
        exact .inr ⟨List.cons_ne_nil _ _, g, underived_of_inheritWith hg, rfl⟩
      · rcases ih h with ⟨q, hq, hL⟩ | ⟨-, hg⟩
        · exact .inl ⟨q, by simp [hq], hL⟩
        · exact .inr ⟨List.cons_ne_nil _ _, hg⟩

/-- A line fails for an unknown reference or a malformed expression. -/
theorem underived_of_property {c : Cause} (h : property d s L = .error c) : c.Underived := by
  unfold property at h
  simp only at h
  split at h
  · next e he =>
    cases h
    exact Reference.underived_of_resolve he
  · split at h
    · split at h
      · next failure _ =>
        cases h
        exact .expression failure
      · cases h
    · cases h

/-- Declaring stops at a line whose value cannot be derived, or whose key may not come again. -/
theorem stopped_of_declareLines (h : declareLines overwrite L s ds = .error f) : ∃ d ∈ ds,
    (∃ g : Fault, g.Underived ∧ f = g.atLine d.line) ∨
      overwrite = false ∧ f = (s.duplicateKey d.key).atLine d.line := by
  induction ds generalizing s with
  | nil => cases h
  | cons d ds ih =>
    unfold declareLines at h
    split at h
    · next c hc =>
      cases h
      exact ⟨d, by simp, .inl ⟨_, ⟨c, underived_of_property hc, rfl⟩, rfl⟩⟩
    · next p hp =>
      split at h
      · next g hg =>
        cases h
        obtain ⟨hforbidden, rfl⟩ := insert_eq_error hg
        rw [Property.key_of_property hp]
        exact ⟨d, by simp, .inr ⟨hforbidden, rfl⟩⟩
      · next m hm =>
        obtain ⟨d', hd', hstop⟩ := ih h
        have hfault : m.duplicateKey d'.key = s.duplicateKey d'.key := by rw [insert_ok hm]; rfl
        rw [hfault] at hstop
        exact ⟨d', by simp [hd'], hstop⟩

/-! ## Blocks -/

/-- How a run stops with the fault `f` at the block `b`, whose parents were built. -/
inductive Stops (overwrite : Bool) (b : Block) (f : Fault) : Prop where
  /-- A value of a parent cannot be derived again in the heir. -/
  | atHeader (parents : b.parents ≠ []) (g : Fault) (cause : g.Underived)
      (fault : f = (g.atLine b.line).inSection b.name)
  /-- The value of a line cannot be derived. -/
  | atValue (d : Declaration) (mem : d ∈ b.declarations) (g : Fault) (cause : g.Underived)
      (fault : f = (g.atLine d.line).inSection b.name)
  /-- The key of a line is taken and may not be declared again. -/
  | atKey (d : Declaration) (mem : d ∈ b.declarations) (forbidden : overwrite = false)
      (fault : f = (((Section.new b.name).duplicateKey d.key).atLine d.line).inSection b.name)

/-- A block whose parents were built fails in one of these ways. -/
theorem stops_of_ofBlock (h : ofBlock b L overwrite = .error f)
    (hL : ∀ p ∈ b.parents, ∃ P, L p = some P) : Stops overwrite b (f.inSection b.name) := by
  unfold ofBlock at h
  split at h
  · next g hm =>
    cases h
    rcases stopped_of_mergeParents hm with ⟨p, hp, hnone⟩ | ⟨hne, g, hg, rfl⟩
    · -- no parent is missing
      obtain ⟨P, hP⟩ := hL p hp
      rw [hnone] at hP
      cases hP
    · exact .atHeader hne g hg rfl
  · next m hm =>
    obtain ⟨d, hd, ⟨g, hg, rfl⟩ | ⟨hforbidden, rfl⟩⟩ := stopped_of_declareLines h
    · exact .atValue d hd g hg rfl
    · refine .atKey d hd hforbidden ?_
      rw [duplicateKey, name_of_mergeParents hm]
      rfl

theorem Stops.kind (h : Stops overwrite b f) : f.kind = .unknownReference ∨
    f.kind = .malformedExpression ∨ f.kind = .duplicateKey ∧ overwrite = false := by
  cases h with
  | atHeader _ g hg hf =>
    obtain ⟨c, hc, rfl⟩ := hg
    exact hf ▸ hc.imp_right .inl
  | atValue _ _ g hg hf =>
    obtain ⟨c, hc, rfl⟩ := hg
    exact hf ▸ hc.imp_right .inl
  | atKey d _ hforbidden hf => exact hf ▸ .inr (.inr ⟨rfl, hforbidden⟩)

/-- A run names the block at which it stops. -/
theorem Stops.place_owner (h : Stops overwrite b f) : f.place.owner = some b.name := by
  cases h with
  | atHeader _ g hg hf =>
    obtain ⟨c, -, rfl⟩ := hg
    exact hf ▸ rfl
  | atValue _ _ g hg hf =>
    obtain ⟨c, -, rfl⟩ := hg
    exact hf ▸ rfl
  | atKey d _ _ hf => exact hf ▸ rfl

theorem Stops.place_line (h : Stops overwrite b f) :
    (∃ d ∈ b.declarations, f.place.line = some d.line) ∨
      b.parents ≠ [] ∧ f.place.line = some b.line := by
  cases h with
  | atHeader hne g hg hf =>
    obtain ⟨c, -, rfl⟩ := hg
    exact .inr ⟨hne, hf ▸ rfl⟩
  | atValue d hd g hg hf =>
    obtain ⟨c, -, rfl⟩ := hg
    exact .inl ⟨d, hd, hf ▸ rfl⟩
  | atKey d hd _ hf => exact .inl ⟨d, hd, hf ▸ rfl⟩

/-! ## Runs -/

variable {blocks done rest : List Block} {built : List Section} {order : List Nat} {p : Text}

/-- A run that stops has built the blocks before the one at which it stops. -/
theorem exists_of_buildInOrder_error (h : buildInOrder blocks overwrite built order = .error f) :
    ∃ done b rest mid g, arrange blocks order = done ++ b :: rest ∧
      Builds overwrite built done mid ∧ ofBlock b (find mid) overwrite = .error g ∧
        f = g.inSection b.name := by
  induction order generalizing built with
  | nil => cases h
  | cons i order ih =>
    cases hb : blocks[i]? with
    | none =>
      simp only [buildInOrder, hb] at h
      rw [arrange, List.filterMap_cons_none hb]
      exact ih h
    | some b =>
      simp only [buildInOrder, hb] at h
      rw [arrange, List.filterMap_cons_some hb]
      split at h
      · next g hg =>
        cases h
        exact ⟨[], b, _, built, g, rfl, .nil, hg, rfl⟩
      · next s hs =>
        obtain ⟨done, b', rest, mid, g, hsplit, hdone, hg, rfl⟩ := ih h
        exact ⟨b :: done, b', rest, mid, g, congrArg (b :: ·) hsplit, .cons hs hdone, hg, rfl⟩

/-- In the order of construction, parents stand before their heirs. -/
theorem mem_done_of_parent (ho : Order.construction (blocks.map node) = .ok order)
    (h : arrange blocks order = done ++ b :: rest) (hp : p ∈ b.parents) :
    p ∈ done.map Block.name := by
  obtain ⟨o₁, i, o₂, rfl, rfl, hi⟩ := arrange_split h
  have hi' : (blocks.map node)[i]? = some (node b) := by simp [hi]
  -- the order is made of a table of parents, in which every parent has a number
  obtain ⟨-, ⟨t, ht, -⟩, -⟩ := Order.construction_spec ho
  have hrow := (Order.parentRows_ok ht).2 i (node b) hi'
  obtain ⟨k, hk⟩ := (Order.parentRow_ok hrow).1 p hp
  have hmem := Order.before_of_parent ho ⟨node b, hi', p, hp, hk⟩ o₁ o₂ rfl
  obtain ⟨m, hm, rfl⟩ := Order.indexOf?_eq_some hk
  rw [List.getElem?_map] at hm
  obtain ⟨b', hb', rfl⟩ := Option.map_eq_some_iff.1 hm
  exact List.mem_map.2 ⟨b', List.mem_filterMap.2 ⟨k, hmem, hb'⟩, rfl⟩

/-- Once there is an order, building stops at a block for one of three reasons. -/
theorem stops_of_sectionsOf (ho : Order.construction (blocks.map node) = .ok order)
    (h : sectionsOf blocks overwrite = .error f) : ∃ b ∈ blocks, Stops overwrite b f := by
  simp only [sectionsOf, ho] at h
  cases hbuild : buildInOrder blocks overwrite [] order with
  | ok built =>
    rw [hbuild] at h
    cases h
  | error g =>
    rw [hbuild] at h
    cases h
    obtain ⟨done, b, rest, mid, g, hsplit, hdone, hg, rfl⟩ := exists_of_buildInOrder_error hbuild
    have hb : b ∈ arrange blocks order := by simp [hsplit]
    refine ⟨b, (arrange_perm ho).mem_iff.1 hb, ?_⟩
    apply stops_of_ofBlock hg
    intro p hp
    -- what was built has the names of the blocks before `b`
    have hnames : mid.map Section.name = done.map Block.name := by simpa using hdone.names
    rw [find_isSome_iff, hnames]
    exact mem_done_of_parent ho hsplit hp

end Construction

/-! ## Documents -/

namespace Document

open Construction Source

variable {t : Text} {o : Options} {blocks : List Block} {order : List Nat} {f : Fault}

/-- The fault names a block. Its line is one of the block's lines, or the header if the block has
parents. Duplicate keys are faults only if overriding is forbidden, and no parent is missing. -/
theorem parse_stopped (hblocks : Block.ofText t o.limits = .ok blocks)
    (horder : Order.construction (blocks.map node) = .ok order) (h : parse t o = .error f) :
    (f.kind = .unknownReference ∨ f.kind = .malformedExpression ∨
        f.kind = .duplicateKey ∧ o.overwrite = false) ∧
      ∃ b ∈ blocks, f.place.owner = some b.name ∧
        ((∃ d ∈ b.declarations, f.place.line = some d.line) ∨
          b.parents ≠ [] ∧ f.place.line = some b.line) := by
  rw [parse_of_blocks hblocks] at h
  cases hs : sectionsOf blocks o.overwrite with
  | ok ss =>
    rw [hs] at h
    cases h
  | error g =>
    rw [hs] at h
    cases h
    obtain ⟨b, hb, hstops⟩ := stops_of_sectionsOf horder hs
    exact ⟨hstops.kind, b, hb, hstops.place_owner, hstops.place_line⟩

/-- An heir that declares another value under a key, which its own heir cannot evaluate. -/
def heirOfText : Text := "[A]\nk = 1\nx = ($k)\n[B] : A\nk = a)\n[C] : B\n".toList

/-- The heir of the heir cannot be built: the value that it takes over is evaluated again. -/
theorem parse_stopped_heirOfText : ∃ blocks order f,
    Block.ofText heirOfText Options.standard.limits = .ok blocks ∧
      Order.construction (blocks.map node) = .ok order ∧ parse heirOfText .standard = .error f ∧
      (f.kind = .unknownReference ∨ f.kind = .malformedExpression) ∧
      ∃ b ∈ blocks, f.place.owner = some b.name ∧
        ((∃ d ∈ b.declarations, f.place.line = some d.line) ∨
          b.parents ≠ [] ∧ f.place.line = some b.line) := by
  obtain ⟨blocks, hblocks⟩ :=
    exists_of_isOk (x := Block.ofText heirOfText Options.standard.limits) (by decide +kernel)
  have hordered : ∀ bs, Block.ofText heirOfText Options.standard.limits = .ok bs →
      (Order.construction (bs.map node)).isOk = true := by
    intro bs hbs
    cases hbs
    decide +kernel
  obtain ⟨order, horder⟩ := exists_of_isOk (hordered blocks hblocks)
  have hfails : (parse heirOfText .standard).isOk = false := by decide +kernel
  cases h : parse heirOfText .standard with
  | ok d =>
    rw [h] at hfails
    cases hfails
  | error f =>
    obtain ⟨hkind, hplace⟩ := parse_stopped hblocks horder h
    refine ⟨blocks, order, f, hblocks, horder, rfl, ?_, hplace⟩
    rcases hkind with hkind | hkind | ⟨-, hforbidden⟩
    · exact .inl hkind
    · exact .inr hkind
    · cases hforbidden

end Document

end Lineage
