import Lineage.Order.Construction
import Lineage.Section.Merge
import Lineage.Source.Block
/-!
# Building sections

A section is built from its block: its parents are merged in turn, then its lines are declared
from top to bottom. The value of a line has its references replaced, is evaluated if it is an
expression, and is read as a literal.
-/
namespace Lineage

/-- How a text is loaded. -/
structure Options where
  limits : Limits
  /-- Whether a declaration may replace a property with the same key. -/
  overwrite : Bool
deriving DecidableEq, Repr

/-- The usual limits, and declarations may replace. -/
def Options.standard : Options := ⟨.standard, true⟩

namespace Construction

open Source

/-- The sections that a line refers to, in its value and in the expression of its comment. -/
def namesIn (d : Declaration) : List Text :=
  Reference.sectionsNamed d.value ++
    ((d.comment.bind Note.expressionSource).map Reference.sectionsNamed).getD []

/-- What the order of construction depends on of a block. -/
def node (b : Block) : Order.Node :=
  ⟨b.name, b.parents, (b.declarations.flatMap namesIn).foldl Reference.addName [], b.line⟩

/-- The property of a line in the section built so far. -/
def property (d : Declaration) (s : Section) (built : Lookup) : Except Cause Property :=
  let note := (d.comment.map Note.parse).getD .blank
  match Reference.resolve d.value note s built with
  | .error c => .error c
  | .ok r =>
    let isExpression := r.derivation.any Derivation.isExpression
    if isExpression || r.text.contains '(' || Reference.forcesEvaluation d.value note then
      match Expression.evaluate r.text with
      | .error f => .error (.expression f)
      | .ok t =>
        let derivation := if isExpression then r.derivation else some (.expression d.value)
        .ok (.new d.key (.infer t) ⟨note.comment, derivation⟩)
    else .ok (.new d.key (.infer r.text) ⟨note.comment, r.derivation⟩)

/-- Merges the parents of a block in turn. -/
def mergeParents (line : Nat) (built : Lookup) : Section → List Text → Except Fault Section
  | s, [] => .ok s
  | s, p :: ps => match built p with
    | none => .error (.of (.parentNotBuilt p))
    | some parent => match (s.inheritWith parent true built).toExcept with
      | .error f => .error (f.atLine line)
      | .ok s => mergeParents line built s ps

/-- Declares the lines of a block in turn. -/
def declareLines (overwrite : Bool) (built : Lookup) : Section → List Declaration →
    Except Fault Section
  | s, [] => .ok s
  | s, d :: ds => match property d s built with
    | .error c => .error ((Fault.of c).atLine d.line)
    | .ok p => match s.insert p overwrite with
      | .error f => .error (f.atLine d.line)
      | .ok s => declareLines overwrite built s ds

/-- The section of a block. -/
def ofBlock (b : Block) (built : Lookup) (overwrite : Bool) : Except Fault Section :=
  match mergeParents b.line built (.new b.name) b.parents with
  | .error f => .error f
  | .ok s => declareLines overwrite built s b.declarations

/-- Finds a section by its name. -/
def find (sections : List Section) : Lookup := fun name => sections.find? (·.name == name)

/-- Builds blocks in the given order; each may use the sections built before it. -/
def buildInOrder (blocks : List Block) (overwrite : Bool) : (built : List Section) →
    (order : List Nat) → Except Fault (List Section)
  | built, [] => .ok built
  | built, i :: order => match blocks[i]? with
    | none => buildInOrder blocks overwrite built order
    | some b => match ofBlock b (find built) overwrite with
      | .error f => .error (f.inSection b.name)
      | .ok s => buildInOrder blocks overwrite (built ++ [s]) order

/-- The sections of the blocks, in the order of the blocks. -/
def sectionsOf (blocks : List Block) (overwrite : Bool) : Except Fault (List Section) :=
  match Order.construction (blocks.map node) with
  | .error f => .error f
  | .ok order => (buildInOrder blocks overwrite [] order).map fun built =>
      blocks.filterMap fun b => find built b.name

/-- The sections of a text. -/
def sections (t : Text) (o : Options) : Except Fault (List Section) :=
  match Block.ofText t o.limits with
  | .error f => .error f
  | .ok blocks => sectionsOf blocks o.overwrite

end Construction

end Lineage
