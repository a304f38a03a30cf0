import Lineage.Construction
/-!
# Documents

A document is a list of sections with different names. It may be bound to a file whose text has
not been read yet.
-/
namespace Lineage

/-- The sections of a document and where they come from. -/
structure Document where
  /-- The path of the file that the document is bound to. -/
  source : Option Text
  sections : List Section
  /-- Whether the sections have been built, or there is nothing to build them from. -/
  initialized : Bool
  options : Options

namespace Document

/-- A document without sections and without a file. -/
def blank (o : Options) : Document := ⟨none, [], false, o⟩

/-- The document that a text stands for. -/
def parse (t : Text) (o : Options) : Except Fault Document :=
  (Construction.sections t o).map fun sections => ⟨none, sections, true, o⟩

/-- The section with a name. -/
def section? (d : Document) (name : Text) : Option Section := d.sections.find? (·.name == name)

/-- Finds the sections of the document. -/
def lookup (d : Document) : Lookup := d.section?

/-- The names of the sections, in order. -/
def names (d : Document) : List Text := d.sections.map Section.name

/-- The property under a key of a section. -/
def get? (d : Document) (name key : Text) : Option Property := (d.section? name).bind (·.get? key)

/-- The property that is meant. -/
def property? (d : Document) (i : PropertyId) : Option Property := d.get? i.owner i.key

/-- The properties with this value, in order. -/
def withValue (d : Document) (v : Value) : List Property := d.sections.flatMap (·.withValue v)

/-- Changes the section with the name. -/
def modify (d : Document) (name : Text) (f : Section → Section) : Document :=
  { d with sections := modifyFirst Section.name f name d.sections }

/-- Puts a section behind the others. Its name must be new. -/
def add (d : Document) (s : Section) : Except Fault Document :=
  if (d.section? s.name).isSome then .error (.of (.duplicateSection s.name))
  else .ok { d with sections := d.sections ++ [s], initialized := true }

/-- Takes the section with the name away. -/
def erase (d : Document) (name : Text) : Document :=
  { d with sections := d.sections.eraseP (·.name == name) }

/-- Assigns a value in the section with the name. -/
def set (d : Document) (name key : Text) (v : Value) : Except Fault Document :=
  if (d.section? name).isSome then .ok (d.modify name (·.set key v))
  else .error (.unknownSection name)

/-- Declares a property in the section with the name, if there is one. -/
def insert (d : Document) (name : Text) (p : Property) (overwrite : Bool) :
    Except Fault (Option Document) :=
  match d.section? name with
  | none => .ok none
  | some s => (s.insert p overwrite).map fun s => some (d.modify name fun _ => s)

/-- Merges a parent into the section with the name; both may refer to the whole document. -/
def inherit (d : Document) (name : Text) (parent : Section) (overwrite : Bool) :
    Attempt Document :=
  match d.section? name with
  | none => ⟨d, .ok ()⟩
  | some s =>
    let merged := s.inheritWith parent overwrite d.lookup
    ⟨d.modify name fun _ => merged.state, merged.result⟩

/-- Validates sections in turn, up to the first one that fails. -/
def validateAll (overwrite : Bool) : List Section → List Section × Except Fault Unit
  | [] => ([], .ok ())
  | s :: ss => match s.validate overwrite with
    | .error f => (s :: ss, .error (f.inSection s.name))
    | .ok s =>
      let (rest, result) := validateAll overwrite ss
      (s :: rest, result)

/-- Validates every section under the options of the document. -/
def validate (d : Document) : Attempt Document :=
  let (sections, result) := validateAll d.options.overwrite d.sections
  ⟨{ d with sections }, result⟩

end Document

end Lineage
