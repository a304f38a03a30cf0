import Lineage.Construction
import Lineage.Proofs.Order.Dependencies
import Lineage.Proofs.Source.Added
/-!
# Blocks at other lines

Line numbers are kept for faults only. Blocks that differ in their line numbers yield the same
sections, or faults that differ in their lines (`sectionsOf_unnumbered`).
-/
namespace Lineage

section

variable {ε δ α β : Type} {g : ε → δ}

theorem mapError_eq_iff {x y : Except ε α} : x.mapError g = y.mapError g ↔
    (∃ e e', x = .error e ∧ y = .error e' ∧ g e = g e') ∨ ∃ a, x = .ok a ∧ y = .ok a := by
  cases x <;> cases y <;> simp [Except.mapError, eq_comm]

theorem mapError_map (f : α → β) (x : Except ε α) :
    (x.map f).mapError g = (x.mapError g).map f := by
  cases x <;> rfl

end

/-- A fault apart from its line. -/
def Fault.unnumbered (f : Fault) : Fault := { f with place := { f.place with line := none } }

theorem Fault.cause_eq_of_unnumbered {f f' : Fault} (h : f.unnumbered = f'.unnumbered) :
    f.cause = f'.cause := by
  simp only [unnumbered, mk.injEq] at h
  exact h.1

/-! ## The order of construction -/

namespace Order

variable {nodes : List Node}

theorem firstRepeated?_unnumbered (seen : List Text) (ns : List Node) :
    firstRepeated? seen (ns.map Node.unnumbered) =
      (firstRepeated? seen ns).map Node.unnumbered := by
  induction ns generalizing seen with
  | nil => rfl
  | cons n ns ih =>
    rw [List.map_cons, firstRepeated?, firstRepeated?, apply_ite (Option.map Node.unnumbered), ← ih]
    rfl

theorem indexOf?_unnumbered (nodes : List Node) :
    indexOf? (nodes.map Node.unnumbered) = indexOf? nodes := by
  funext name
  rw [indexOf?, List.findIdx?_map]
  rfl

theorem parentRow_unnumbered (n : Node) (ps : List Text) :
    (parentRow (nodes.map Node.unnumbered) n.unnumbered ps).mapError Fault.unnumbered =
      (parentRow nodes n ps).mapError Fault.unnumbered := by
  induction ps with
  | nil => rfl
  | cons p ps ih =>
    rw [parentRow, parentRow, indexOf?_unnumbered]
    cases indexOf? nodes p with
    | none => rfl
    | some j => rw [mapError_map, mapError_map, ih]

theorem parentRows_unnumbered (ns : List Node) :
    (parentRows (nodes.map Node.unnumbered) (ns.map Node.unnumbered)).mapError Fault.unnumbered =
      (parentRows nodes ns).mapError Fault.unnumbered := by
  induction ns with
  | nil => rfl
  | cons n ns ih =>
    have hparents : n.unnumbered.parents = n.parents := rfl
    rw [List.map_cons, parentRows, parentRows, hparents]
    rcases mapError_eq_iff.1 (@parentRow_unnumbered nodes n n.parents) with
      ⟨f, f', hf, hf', he⟩ | ⟨row, hrow, hrow'⟩
    · rw [hf, hf']
      exact congrArg Except.error he
    · simp only [hrow, hrow']
      rw [mapError_map, mapError_map, ih]

theorem addReferences_unnumbered (i : Nat) (ns : List Node) (t : Table) :
    addReferences (nodes.map Node.unnumbered) i (ns.map Node.unnumbered) t =
      addReferences nodes i ns t := by
  have hadd : addReference (nodes.map Node.unnumbered) = addReference nodes := by
    funext i t name
    rw [addReference, addReference, indexOf?_unnumbered]
  induction ns generalizing i t with
  | nil => rfl
  | cons n ns ih =>
    rw [List.map_cons, addReferences, addReferences, ih, hadd]
    rfl

theorem cycleFault_unnumbered (nodes : List Node) (cycle : List Nat) :
    (cycleFault (nodes.map Node.unnumbered) cycle).unnumbered =
      (cycleFault nodes cycle).unnumbered := by
  have hnames : (cycle.filterMap fun i => ((nodes.map Node.unnumbered)[i]?).map Node.name) =
      cycle.filterMap fun i => (nodes[i]?).map Node.name := by
    congr 1
    funext i
    rw [List.getElem?_map, Option.map_map]
    rfl
  have hhead : (cycle.head?.bind fun i => (nodes.map Node.unnumbered)[i]?) =
      (cycle.head?.bind fun i => nodes[i]?).map Node.unnumbered := by
    rw [Option.map_bind]
    simp only [List.getElem?_map, Function.comp_def]
  unfold cycleFault
  simp only [hnames, hhead]
  cases cycle.head?.bind fun i => nodes[i]? <;> rfl

/-- The order of construction does not depend on lines. -/
theorem construction_unnumbered (nodes : List Node) :
    (construction (nodes.map Node.unnumbered)).mapError Fault.unnumbered =
      (construction nodes).mapError Fault.unnumbered := by
  unfold construction
  rw [firstRepeated?_unnumbered]
  cases firstRepeated? [] nodes with
  | some n => rfl
  | none =>
    simp only [Option.map_none]
    rcases mapError_eq_iff.1 (@parentRows_unnumbered nodes nodes) with
      ⟨f, f', hf, hf', he⟩ | ⟨table, ht, ht'⟩
    · rw [hf, hf']
      exact congrArg Except.error he
    · simp only [ht, ht', addReferences_unnumbered]
      split
      · rfl
      · exact congrArg Except.error (cycleFault_unnumbered nodes _)

end Order

/-! ## Blocks -/

namespace Construction

open Source

variable {blocks blocks' : List Block} {b b' : Block} {L : Lookup} {overwrite : Bool} {s : Section}

theorem node_unnumbered (b : Block) : node b.unnumbered = (node b).unnumbered := by
  simp only [node, Block.unnumbered, Order.Node.unnumbered, List.flatMap_map]
  rfl

/-- The line of a header is seen in faults only. -/
theorem mergeParents_line (line line' : Nat) (s : Section) (ps : List Text) :
    (mergeParents line L s ps).mapError Fault.unnumbered =
      (mergeParents line' L s ps).mapError Fault.unnumbered := by
  induction ps generalizing s with
  | nil => rfl
  | cons p ps ih =>
    unfold mergeParents
    cases L p with
    | none => rfl
    | some parent =>
      simp only
      cases (s.inheritWith parent true L).toExcept with
      | error f => rfl
      | ok m => exact ih m

/-- The lines of declarations are seen in faults only. -/
theorem declareLines_line (s : Section) (ds : List Declaration) :
    (declareLines overwrite L s (ds.map Declaration.unnumbered)).mapError Fault.unnumbered =
      (declareLines overwrite L s ds).mapError Fault.unnumbered := by
  induction ds generalizing s with
  | nil => rfl
  | cons d ds ih =>
    have hproperty : property d.unnumbered s L = property d s L := rfl
    rw [List.map_cons, declareLines, declareLines, hproperty]
    cases property d s L with
    | error c => rfl
    | ok p =>
      simp only
      cases s.insert p overwrite with
      | error f => rfl
      | ok m => exact ih m

theorem ofBlock_line (b : Block) : (ofBlock b.unnumbered L overwrite).mapError Fault.unnumbered =
    (ofBlock b L overwrite).mapError Fault.unnumbered := by
  simp only [ofBlock, Block.unnumbered]
  rcases mapError_eq_iff.1 (@mergeParents_line L 0 b.line (.new b.name) b.parents) with
    ⟨f, f', hf, hf', he⟩ | ⟨m, hm, hm'⟩
  · rw [hf, hf']
    exact congrArg Except.error he
  · simp only [hm, hm']
    exact declareLines_line m b.declarations

/-- The section of a block does not depend on its lines. -/
theorem ofBlock_unnumbered (h : ofBlock b L overwrite = .ok s)
    (hb : b.unnumbered = b'.unnumbered) : ofBlock b' L overwrite = .ok s := by
  have hline := @ofBlock_line L overwrite b
  rw [hb, ofBlock_line, h] at hline
  rcases mapError_eq_iff.1 hline with ⟨f, f', hf, hf', -⟩ | ⟨t, ht, ht'⟩
  · cases hf'
  · rw [ht, ← ht']

/-! ## Runs -/

/-- Runs over blocks at other lines lead to the same sections, or to faults that differ in lines. -/
theorem buildInOrder_line (built : List Section) (order : List Nat) :
    (buildInOrder (blocks.map Block.unnumbered) overwrite built order).mapError Fault.unnumbered =
      (buildInOrder blocks overwrite built order).mapError Fault.unnumbered := by
  induction order generalizing built with
  | nil => rfl
  | cons i order ih =>
    rw [buildInOrder, buildInOrder, List.getElem?_map]
    cases blocks[i]? with
    | none => exact ih built
    | some b =>
      simp only [Option.map_some]
      rcases mapError_eq_iff.1 (@ofBlock_line (find built) overwrite b) with
        ⟨f, f', hf, hf', he⟩ | ⟨s, hs, hs'⟩
      · rw [hf, hf']
        exact congrArg (fun f : Fault => Except.error (f.inSection b.name)) he
      · simp only [hs, hs']
        exact ih (built ++ [s])

/-- Blocks at other lines have the same sections, or faults that differ in lines. -/
theorem sectionsOf_line (blocks : List Block) :
    (sectionsOf (blocks.map Block.unnumbered) overwrite).mapError Fault.unnumbered =
      (sectionsOf blocks overwrite).mapError Fault.unnumbered := by
  have hnodes : (blocks.map Block.unnumbered).map node =
      (blocks.map node).map Order.Node.unnumbered := by
    simp only [List.map_map, Function.comp_def, node_unnumbered]
  have hput (built : List Section) : ((blocks.map Block.unnumbered).filterMap fun b =>
      find built b.name) = blocks.filterMap fun b => find built b.name := by
    rw [List.filterMap_map]
    rfl
  unfold sectionsOf
  rw [hnodes]
  rcases mapError_eq_iff.1 (Order.construction_unnumbered (blocks.map node)) with
    ⟨f, f', hf, hf', he⟩ | ⟨order, ho, ho'⟩
  · rw [hf, hf']
    exact congrArg Except.error he
  · simp only [ho, ho', hput]
    rw [mapError_map, mapError_map, buildInOrder_line]

/-- Blocks that differ in line numbers yield the same sections, or faults that differ in lines. -/
theorem sectionsOf_unnumbered (h : blocks.map Block.unnumbered = blocks'.map Block.unnumbered) :
    (sectionsOf blocks overwrite).mapError Fault.unnumbered =
      (sectionsOf blocks' overwrite).mapError Fault.unnumbered := by
  rw [← sectionsOf_line blocks, h, sectionsOf_line]

end Construction

end Lineage
