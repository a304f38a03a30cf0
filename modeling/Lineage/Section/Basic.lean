import Lineage.Fault
import Lineage.Property.Basic
/-!
# Sections

A section has a name, the names of the sections it inherits from, and properties in the order in
which they were declared. Operations that may fail leave the section as it was when they fail.
-/
namespace Lineage

/-! ## Lists with keys -/

/-- Changes the first element with the key. -/
def modifyFirst {α : Type} (keyOf : α → Text) (f : α → α) (key : Text) : List α → List α
  | [] => []
  | a :: as => if keyOf a == key then f a :: as else a :: modifyFirst keyOf f key as

/-- The last element of each key, in their order. -/
def keepLast {α : Type} (keyOf : α → Text) : List α → List α
  | [] => []
  | a :: as => if as.any (keyOf · == keyOf a) then keepLast keyOf as else a :: keepLast keyOf as

/-! ## Sections -/

/-- A named list of properties. -/
structure Section where
  name : Text
  /-- The names of the parents, in the order of merging. -/
  parents : List Text
  properties : List Property
deriving BEq

namespace Section

/-- A section without parents and properties. -/
def new (name : Text) : Section := ⟨name, [], []⟩

/-- The properties of a kind, in the order of declaration. -/
def ofKind (s : Section) (k : Kind) : List Property := s.properties.filter (·.kind == k)

/-- The properties as they are listed: grouped by kind. -/
def listed (s : Section) : List Property := Kind.all.flatMap s.ofKind

/-- The properties with this value. -/
def withValue (s : Section) (v : Value) : List Property := s.properties.filter (·.value == v)

/-- The property with a key. -/
def get? (s : Section) (key : Text) : Option Property := s.properties.find? (·.key == key)

/-- The value under a key. -/
def value? (s : Section) (key : Text) : Option Value := (s.get? key).map Property.value

/-- Whether a property has the key. -/
def hasKey (s : Section) (key : Text) : Bool := (s.get? key).isSome

/-- Which property the key stands for, if there is one. -/
def id? (s : Section) (key : Text) : Option PropertyId :=
  if s.hasKey key then some ⟨s.name, key⟩ else none

/-- Changes the property with the key. -/
def modify (s : Section) (key : Text) (f : Property → Property) : Section :=
  { s with properties := modifyFirst Property.key f key s.properties }

/-- A key that stands in the section twice or is declared again. -/
def duplicateKey (s : Section) (key : Text) : Fault :=
  (Fault.of (.duplicateKey key)).inSection s.name

/-- Declares a property. One with the same key is replaced if that is allowed. -/
def insert (s : Section) (p : Property) (overwrite : Bool) : Except Fault Section :=
  if s.hasKey p.key && !overwrite then .error (s.duplicateKey p.key)
  else .ok { s with properties := s.properties.eraseP (·.key == p.key) ++ [p.attach s.name] }

/-- Assigns a value, in place if the key is there and else to a new local property. -/
def set (s : Section) (key : Text) (v : Value) : Section :=
  if s.hasKey key then s.modify key (·.setValue v)
  else { s with properties := s.properties ++ [(Property.new key v .blank).attach s.name] }

/-- Takes the property with the key away. -/
def erase (s : Section) (key : Text) : Section :=
  { s with properties := s.properties.eraseP (·.key == key) }

/-- The key of the last property whose key is declared again behind it. -/
def lastRepeated? : List Property → Option Text
  | [] => none
  | p :: ps => (lastRepeated? ps).or (if ps.any (·.key == p.key) then some p.key else none)

/-- Keeps the last declaration of each key. Repeated keys fail if overwriting is not allowed. -/
def validate (s : Section) (overwrite : Bool) : Except Fault Section :=
  match overwrite, lastRepeated? s.properties with
  | false, some key => .error (s.duplicateKey key)
  | _, _ => .ok { s with properties := keepLast Property.key s.properties }

end Section

end Lineage
