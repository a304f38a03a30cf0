import Lineage.Expression.Operator
import Lineage.Files
/-!
# Faults

A fault is a cause at a place. Causes are told apart by what went wrong; `Cause.kind` sorts them
into the kinds that are reported, and `Cause.message` words them.
-/
namespace Lineage

/-- The kinds of fault. -/
inductive FaultKind where
  | sourceNotFound
  | unsupportedValueKind
  | duplicateKey
  | duplicateSectionName
  | unresolvableInheritance
  | unknownReference
  | unknownSection
  | malformedExpression
  | destinationExists
  | badLine
  | limitExceeded
  | inputOutput
deriving DecidableEq, Repr

/-- The reported name of a kind. -/
def FaultKind.name : FaultKind → String
  | sourceNotFound => "SourceNotFound"
  | unsupportedValueKind => "UnsupportedValueKind"
  | duplicateKey => "DuplicateKey"
  | duplicateSectionName => "DuplicateSectionName"
  | unresolvableInheritance => "UnresolvableInheritance"
  | unknownReference => "UnknownReference"
  | unknownSection => "UnknownSection"
  | malformedExpression => "MalformedExpression"
  | destinationExists => "DestinationExists"
  | badLine => "SyntaxError"
  | limitExceeded => "LimitExceeded"
  | inputOutput => "IOError"

/-- What went wrong. -/
inductive Cause where
  /-- The file of a document does not exist. -/
  | sourceMissing
  /-- The document is not bound to a file. -/
  | noSource
  /-- A JSON null, array or object was given as a value. -/
  | nullValue
  | arrayValue
  | objectValue
  | duplicateKey (key : Text)
  | duplicateSection (name : Text)
  | unknownParent (name parent : Text)
  /-- A parent was asked for before it was built. -/
  | parentNotBuilt (parent : Text)
  /-- The names along a cycle of parents; the last is the first. -/
  | cycle (names : List Text)
  /-- A `$` without a name behind it. -/
  | emptyReference (raw : Text)
  | undeclared (token owner : Text)
  | unknownSectionNamed (token name : Text)
  | noProperty (token name key : Text)
  | unknownSection (name : Text)
  | expression (failure : Expression.Failure)
  | destinationExists
  /-- A header line that does not start with `[`. -/
  | noHeader
  | unclosedHeader
  | emptyName
  | afterHeader (rest : Text)
  /-- A line that is neither a header nor `key = value`. -/
  | notProperty
  | emptyKey
  | propertyBeforeHeader
  | fileSize (size limit : Nat)
  | lineLength (size limit : Nat)
  | sectionCount (count limit : Nat)
  | propertyCount (count limit : Nat)
  | file (failure : Files.Failure)
  /-- A cause given in words. -/
  | stated (kind : FaultKind) (message : Text)

namespace Cause

/-- The kind of a cause. -/
def kind : Cause → FaultKind
  | sourceMissing | noSource => .sourceNotFound
  | nullValue | arrayValue | objectValue => .unsupportedValueKind
  | duplicateKey _ => .duplicateKey
  | duplicateSection _ => .duplicateSectionName
  | unknownParent .. | parentNotBuilt _ | cycle _ => .unresolvableInheritance
  | emptyReference _ | undeclared .. | unknownSectionNamed .. | noProperty .. => .unknownReference
  | unknownSection _ => .unknownSection
  | expression _ => .malformedExpression
  | destinationExists => .destinationExists
  | noHeader | unclosedHeader | emptyName | afterHeader _ | notProperty | emptyKey
  | propertyBeforeHeader => .badLine
  | fileSize .. | lineLength .. | sectionCount .. | propertyCount .. => .limitExceeded
  | file _ => .inputOutput
  | stated k _ => k

/-- The wording of a cause. -/
def message : Cause → String
  | sourceMissing => "source file does not exist"
  | noSource => "document has no source file"
  | nullValue => "null has no property kind"
  | arrayValue => "arrays have no property kind"
  | objectValue => "objects have no property kind"
  | duplicateKey k => s!"key '{String.ofList k}' is declared more than once"
  | duplicateSection n => s!"section '{String.ofList n}' is declared more than once"
  | unknownParent n p =>
    s!"section '{String.ofList n}' inherits from unknown section '{String.ofList p}'"
  | parentNotBuilt p => s!"parent '{String.ofList p}' was not built first"
  | cycle ns =>
    "sections inherit from each other in a cycle: " ++
      String.intercalate " -> " (ns.map String.ofList)
  | emptyReference raw => s!"'$' without a name in '{String.ofList raw}'"
  | undeclared t o =>
    s!"'${String.ofList t}' is not declared before this line in '{String.ofList o}'"
  | unknownSectionNamed t n =>
    s!"'${String.ofList t}' names section '{String.ofList n}', which is unknown or not built yet"
  | noProperty t n k =>
    s!"'${String.ofList t}': section '{String.ofList n}' has no property '{String.ofList k}'"
  | unknownSection n => s!"document has no section '{String.ofList n}'"
  | expression f => f.message
  | destinationExists => "destination already exists"
  | noHeader => "section header must start with '['"
  | unclosedHeader => "section header is missing ']'"
  | emptyName => "section name is empty"
  | afterHeader r => s!"unexpected '{String.ofList r}' after section header"
  | notProperty => "expected 'key = value'"
  | emptyKey => "property key is empty"
  | propertyBeforeHeader => "property declared before any section header"
  | fileSize n l => s!"input is {n} bytes, limit is {l}"
  | lineLength n l => s!"line is {n} bytes, limit is {l}"
  | sectionCount n l => s!"{n} sections, limit is {l}"
  | propertyCount n l => s!"{n} properties, limit is {l}"
  | file f => f.message
  | stated _ m => String.ofList m

end Cause

/-- Where a fault arose, as far as that is known. -/
structure Place where
  path : Option Text
  /-- The line, counted from one. -/
  line : Option Nat
  /-- The name of the section. -/
  owner : Option Text
deriving DecidableEq

namespace Place

/-- Nothing is known of the place. -/
def unknown : Place := ⟨none, none, none⟩

/-- The wording of a place. -/
def text (p : Place) : String :=
  let file := match p.path, p.line with
    | some f, some n => s!"{String.ofList f}:{n}"
    | some f, none => String.ofList f
    | none, some n => s!"line {n}"
    | none, none => "<input>"
  match p.owner with
  | some o => s!"{file} [{String.ofList o}]"
  | none => file

end Place

/-- A cause at a place. -/
structure Fault where
  cause : Cause
  place : Place

namespace Fault

/-- A cause at an unknown place. -/
def of (c : Cause) : Fault := ⟨c, .unknown⟩

/-- Adds the line, unless one is known. -/
def atLine (f : Fault) (n : Nat) : Fault :=
  { f with place := { f.place with line := f.place.line.or (some n) } }

/-- Adds the section, unless one is known. -/
def inSection (f : Fault) (name : Text) : Fault :=
  { f with place := { f.place with owner := f.place.owner.or (some name) } }

/-- Adds the file, unless one is known. -/
def inFile (f : Fault) (path : Text) : Fault :=
  { f with place := { f.place with path := f.place.path.or (some path) } }

/-- The kind of a fault. -/
def kind (f : Fault) : FaultKind := f.cause.kind

/-- The wording of a fault with its kind and its place. -/
def text (f : Fault) : String := s!"{f.kind.name} at {f.place.text}: {f.cause.message}"

/-- A section that the document does not have. -/
def unknownSection (name : Text) : Fault := (of (.unknownSection name)).inSection name

end Fault

/-- What a call leaves behind when it may fail halfway: the state, and whether it succeeded. -/
structure Attempt (σ : Type) where
  state : σ
  result : Except Fault Unit

/-- The state of a successful attempt. -/
def Attempt.toExcept {σ : Type} (a : Attempt σ) : Except Fault σ :=
  match a.result with
  | .ok () => .ok a.state
  | .error f => .error f

end Lineage
