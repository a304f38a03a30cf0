import Lineage.Document.Stored
import Lineage.Number.Literal
import Lineage.Value
/-!
# Records

A field of a record has a type. A value is read as a field type or refused: nothing is converted
from one kind to another, and a number is an integer only if it is one exactly.

A record is read from a section, field by field: each field from the property with its name. One
section of a document is read as a record, or all of them in order, where the first one that cannot
be read fails.
-/
/-! ## Types of fields -/

namespace Lineage

/-- The integer types of fields. -/
inductive IntegerType where
  | signed32
  | unsigned32
  | signed64
  | unsigned64
  /-- A size on a 64-bit machine. -/
  | size
deriving DecidableEq, Repr

namespace IntegerType

/-- The short name of an integer type. -/
def name : IntegerType → String
  | signed32 => "i32"
  | unsigned32 => "u32"
  | signed64 => "i64"
  | unsigned64 => "u64"
  | size => "usize"

/-- The least integer of a type. -/
def least : IntegerType → Int
  | signed32 => -2147483648
  | signed64 => -9223372036854775808
  | unsigned32 | unsigned64 | size => 0

/-- The greatest integer of a type. -/
def greatest : IntegerType → Int
  | signed32 => 2147483647
  | unsigned32 => 4294967295
  | signed64 => 9223372036854775807
  | unsigned64 | size => 18446744073709551615

/-- The width of a type. -/
def bits : IntegerType → Nat
  | signed32 | unsigned32 => 32
  | signed64 | unsigned64 | size => 64

/-- The least number in the range of a type. -/
def lower (t : IntegerType) : Float := Number.ofInt t.least

/-- The least number past the range of a type, a power of two. The greatest integer of 64 bits is
rounded up to it; that of 32 bits is a double, and the next integer is one more. -/
def upper (t : IntegerType) : Float :=
  Number.ofInt t.greatest + if t.bits < 53 then 1 else 0

/-- Whether a number is whole and in the range of a type. -/
def holds (t : IntegerType) (x : Float) : Bool :=
  Number.isWhole x && decide (t.lower ≤ x) && decide (x < t.upper)

/-- A number as an integer of a type: without its fraction, and moved to the end of the range that
it is past. What is no number becomes zero. -/
def convert (t : IntegerType) (x : Float) : Int :=
  if x.isNaN then 0 else max t.least (min t.greatest (Number.truncate x))

/-- The integer that a number is, if the type has it. -/
def ofNumber? (t : IntegerType) (x : Float) : Option Int :=
  if t.holds x then some (t.convert x) else none

end IntegerType

/-- A type of fields. -/
structure FieldType (α : Type) where
  /-- What is expected of a value, in words. -/
  expected : String
  /-- Reads a value. -/
  ofValue? : Value → Option α

namespace FieldType

/-- Truth values. -/
def bool : FieldType Bool := ⟨"boolean", Value.bool?⟩

/-- Numbers in double precision. -/
def double : FieldType Float := ⟨"number", Value.number?⟩

/-- Numbers rounded to single precision. -/
def single : FieldType Float32 := ⟨"number", fun v => v.number?.map Float.toFloat32⟩

/-- Integers. -/
def integer (t : IntegerType) : FieldType Int :=
  ⟨s!"integer ({t.name})", fun v => v.number?.bind t.ofNumber?⟩

/-- Texts. -/
def text : FieldType Text := ⟨"text", Value.text?⟩

/-- Values of any kind. -/
def any : FieldType Value := ⟨"any value", some⟩

end FieldType

/-! ## Records of sections -/

/-- Why a record cannot be read. -/
inductive RecordFault where
  /-- A required field has no property. -/
  | missing (owner field : Text)
  /-- A property has a value that its field does not take. -/
  | mismatch (owner field : Text) (expected : String) (found : Value)
  | unknownSection (name : Text)
  /-- The document could not be read. -/
  | document (fault : Fault)

namespace RecordFault

/-- A value in a message: a text is not quoted. -/
def describe : Value → String
  | .text _ => "text"
  | v => s!"{v.kind.name} {String.ofList v.literal}"

/-- The wording of a fault. -/
def message : RecordFault → String
  | missing s f => s!"section '{String.ofList s}' has no property '{String.ofList f}'"
  | mismatch s f expected found =>
    s!"property '{String.ofList s}.{String.ofList f}' is {describe found}, expected {expected}"
  | unknownSection n => s!"section '{String.ofList n}' not found"
  | document f => f.text

end RecordFault

/-- A way to read a section as a record. -/
abbrev Record (α : Type) := Section → Except RecordFault α

namespace Section

/-- Reads a field that may be absent. -/
def optional {α : Type} (s : Section) (t : FieldType α) (field : Text) :
    Except RecordFault (Option α) :=
  match s.value? field with
  | none => .ok none
  | some v => match t.ofValue? v with
    | some a => .ok (some a)
    | none => .error (.mismatch s.name field t.expected v)

/-- Reads a field that must be there. -/
def require {α : Type} (s : Section) (t : FieldType α) (field : Text) : Except RecordFault α :=
  match s.optional t field with
  | .ok (some a) => .ok a
  | .ok none => .error (.missing s.name field)
  | .error f => .error f

end Section

/-! ## Records of documents -/

namespace Record

/-- Reads the section with a name. -/
def ofSection {α : Type} (r : Record α) (d : Document) (name : Text) : Except RecordFault α :=
  match d.section? name with
  | some s => r s
  | none => .error (.unknownSection name)

/-- Reads every section. -/
def ofSections {α : Type} (r : Record α) : List Section → Except RecordFault (List α)
  | [] => .ok []
  | s :: ss => match r s with
    | .error f => .error f
    | .ok a => (ofSections r ss).map (a :: ·)

/-- Reads every section of a document. -/
def ofDocument {α : Type} (r : Record α) (d : Document) : Except RecordFault (List α) :=
  r.ofSections d.sections

/-- Loads the document of a file. -/
def loadDocument (fs : Files) (path : Text) : Except RecordFault Document :=
  (Document.load fs path .standard).mapError .document

/-- Reads the section with a name in a file. -/
def load {α : Type} (r : Record α) (fs : Files) (path name : Text) : Except RecordFault α :=
  match loadDocument fs path with
  | .error f => .error f
  | .ok d => r.ofSection d name

/-- Reads every section in a file. -/
def loadAll {α : Type} (r : Record α) (fs : Files) (path : Text) : Except RecordFault (List α) :=
  match loadDocument fs path with
  | .error f => .error f
  | .ok d => r.ofDocument d

end Record

end Lineage
