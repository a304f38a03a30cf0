import Lineage.Fault
import Lineage.Property.Basic
import Lineage.Text.Lines
import Lineage.Text.Search
/-!
# Blocks

A header line is `[name]` with the parents behind a colon, a property line is `key = value` with a
comment behind it. Both are read without regard to blanks around their parts.

A text is split into blocks, each a header and the property lines below it. Blank lines and lines
that hold only a comment are passed over. Limits, upper bounds on what a single load may take, are
checked line by line; sizes are counted in bytes of UTF-8.
-/
/-! ## Lines -/

namespace Lineage.Source

/-- A header line. -/
structure Header where
  name : Text
  parents : List Text
deriving DecidableEq, Repr

/-- A property line, as it is written. -/
structure Declaration where
  key : Text
  /-- The value without the comment. -/
  value : Text
  /-- The comment with its mark. -/
  comment : Option Text
  /-- The number of the line, counted from one. -/
  line : Nat
deriving DecidableEq, Repr

/-- The text before the first comment mark, and the comment from there on. -/
def splitComment (t : Text) : Text × Option Text :=
  let rest := t.dropWhile (! Note.isMark ·)
  (t.takeWhile (! Note.isMark ·), if rest.isEmpty then none else some rest)

/-- The place of the first comment mark, in bytes. -/
def commentOffset? (t : Text) : Option Nat :=
  if t.any Note.isMark then some (Text.utf8Size (t.takeWhile (! Note.isMark ·))) else none

/-- Whether a text starts with a comment mark. -/
def isComment (t : Text) : Bool := t.head?.any Note.isMark

/-- The names in a list of parents; empty ones are passed over. -/
def parentNames (t : Text) : List Text :=
  ((t.splitOn ',').map Text.trim).filter (! ·.isEmpty)

/-- The parents named behind the closing bracket of a header. -/
def parentsAfter (rest : Text) : Except Cause (List Text) :=
  if rest.isEmpty || isComment rest then .ok []
  else match rest with
    | ':' :: list => .ok (parentNames (splitComment list).1)
    | _ => .error (.afterHeader rest)

/-- Reads what follows the opening bracket of a header. -/
def Header.parseInner (inner : Text) : Except Cause Header :=
  match inner.splitAt? ']' with
  | none => .error .unclosedHeader
  | some (name, rest) =>
    if name.trim.isEmpty then .error .emptyName
    else (parentsAfter rest.trim).map fun parents => ⟨name.trim, parents⟩

/-- Reads a header line. -/
def Header.parse (line : Text) : Except Cause Header :=
  match line.trim with
  | '[' :: inner => Header.parseInner inner
  | _ => .error .noHeader

/-- Reads a property line, the one with the given number. -/
def Declaration.parse (line : Text) (number : Nat) : Except Cause Declaration :=
  match line.splitAt? '=' with
  | none => .error .notProperty
  | some (key, rest) =>
    if key.trim.isEmpty then .error .emptyKey
    else .ok ⟨key.trim, (splitComment rest).1.trim, (splitComment rest).2.map Text.trim, number⟩

end Lineage.Source

namespace Lineage

/-! ## Limits -/

/-- The bounds of a load. -/
structure Limits where
  fileSize : Nat
  lineLength : Nat
  sections : Nat
  /-- The properties declared in one section. -/
  properties : Nat
deriving DecidableEq, Repr

namespace Limits

/-- The greatest size of a 64-bit machine. -/
def greatest : Nat := UInt64.size - 1

/-- The usual bounds: 64 MiB, lines of 1 MiB, 100000 sections and properties. -/
def standard : Limits := ⟨64 * 1024 * 1024, 1024 * 1024, 100000, 100000⟩

/-- No bounds that a text could reach. -/
def unlimited : Limits := ⟨greatest, greatest, greatest, greatest⟩

/-- Fails if the text is too long. -/
def checkFileSize (l : Limits) (size : Nat) : Except Fault Unit :=
  if l.fileSize < size then .error (.of (.fileSize size l.fileSize)) else .ok ()

/-- Fails if a line is too long. -/
def checkLineLength (l : Limits) (size line : Nat) : Except Fault Unit :=
  if l.lineLength < size then .error ((Fault.of (.lineLength size l.lineLength)).atLine line)
  else .ok ()

/-- Fails if there are too many sections. -/
def checkSections (l : Limits) (count : Nat) : Except Fault Unit :=
  if l.sections < count then .error (.of (.sectionCount count l.sections)) else .ok ()

/-- Fails if a section declares too many properties. -/
def checkProperties (l : Limits) (count : Nat) (name : Text) : Except Fault Unit :=
  if l.properties < count then
    .error ((Fault.of (.propertyCount count l.properties)).inSection name)
  else .ok ()

end Limits

/-! ## Blocks -/

namespace Source

/-- A header and the property lines below it. -/
structure Block where
  name : Text
  parents : List Text
  /-- The number of the header line, counted from one. -/
  line : Nat
  declarations : List Declaration
deriving DecidableEq, Repr

namespace Block

/-- Adds a declaration to a block. -/
def declare (b : Block) (limits : Limits) (d : Declaration) : Except Fault Block :=
  match limits.checkProperties (b.declarations.length + 1) b.name with
  | .error f => .error (f.atLine d.line)
  | .ok () => .ok { b with declarations := b.declarations ++ [d] }

/-- Adds a line to the blocks above it, of which the nearest comes first. -/
def addLine (limits : Limits) (above : List Block) (number : Nat) (line : Text) :
    Except Fault (List Block) :=
  match limits.checkLineLength line.utf8Size number with
  | .error f => .error f
  | .ok () =>
    if line.trim.isEmpty || isComment line.trim then .ok above
    else if line.trim.head? = some '[' then
      match Header.parse line.trim with
      | .error c => .error ((Fault.of c).atLine number)
      | .ok h => match limits.checkSections (above.length + 1) with
        | .error f => .error f
        | .ok () => .ok (⟨h.name, h.parents, number, []⟩ :: above)
    else match above with
      | [] => .error ((Fault.of .propertyBeforeHeader).atLine number)
      | block :: above => match Declaration.parse line number with
        | .error c => .error ((Fault.of c).atLine number)
        | .ok d => (block.declare limits d).map (· :: above)

/-- Adds lines to the blocks above them; the first line has the given number. -/
def addLines (limits : Limits) : (above : List Block) → (number : Nat) → List Text →
    Except Fault (List Block)
  | above, _, [] => .ok above
  | above, number, line :: lines => match addLine limits above number line with
    | .error f => .error f
    | .ok above => addLines limits above (number + 1) lines

/-- Takes off a leading byte order mark. -/
def dropMark : Text → Text
  | '\uFEFF' :: t => t
  | t => t

/-- The blocks of a text. -/
def ofText (t : Text) (limits : Limits) : Except Fault (List Block) :=
  match limits.checkFileSize t.utf8Size with
  | .error f => .error f
  | .ok () => (addLines limits [] 1 (Text.lines (dropMark t))).map List.reverse

end Block

end Source

end Lineage
