import Lineage.Document.Stored
import Lineage.Json.Basic
/-!
# Values, documents and plain data in JSON

The scalars of JSON are values and back; null, arrays and objects are none. A document is shown as
an object of its sections, with sorted keys.

Kinds, derivations, notes, property names and modes are written in JSON, and read back. The name of
a case may stand alone or be the key of an object with null or the content of the case. A record may
be an object, in any order and with other members, or an array of all its fields.
-/
namespace Lineage

/-! ## Values and documents -/

/-- The value of a JSON scalar. -/
def Value.ofJson : Json → Except Cause Value
  | .bool b => .ok (.bool b)
  | .number x => .ok (.number x)
  | .string t => .ok (.text (t.getD []))
  | .null => .error .nullValue
  | .array _ => .error .arrayValue
  | .object _ => .error .objectValue

/-- A value as a JSON scalar. -/
def Value.toJson : Value → Json
  | .bool b => .bool b
  | .number x => .number x
  | .text t => .ofText t

/-- Reads a value that a user typed: JSON if `read` takes it for that, and else a literal. -/
def Value.ofInputBy (read : Text → Option Json) (raw : Text) : Except Cause Value :=
  match read raw with
  | some j => Value.ofJson j
  | none => .ok (.infer raw)

namespace Json

/-- Puts a member into members that are sorted by their keys; one with the same key is replaced. -/
def putMember (key : Text) (j : Json) : List (Text × Json) → List (Text × Json)
  | [] => [(key, j)]
  | (k, i) :: ms =>
    if key < k then (key, j) :: (k, i) :: ms
    else if key = k then (key, j) :: ms
    else (k, i) :: putMember key j ms

/-- The object with these members, sorted by their keys; the last one with a key counts. -/
def ofMembers (ms : List (Text × Json)) : Json :=
  .object ((ms.foldl (fun sorted m => putMember m.1 m.2 sorted) []).map fun m => (some m.1, m.2))

end Json

/-- The values of a section under their keys. -/
def Section.toJson (s : Section) : Json :=
  .ofMembers (s.listed.map fun p => (p.key, p.value.toJson))

/-- Sections under their names. -/
def Document.sectionsToJson (ss : List Section) : Json :=
  .ofMembers (ss.map fun s => (s.name, s.toJson))

end Lineage

/-! ## Plain data -/

namespace Lineage.Json

/-- The text of a string. -/
def text? : Json → Option Text
  | string t => t
  | _ => none

/-- Reads null as nothing, and else a content. -/
def nullable? {α : Type} (f : Json → Option α) : Json → Option (Option α)
  | null => some none
  | j => (f j).map some

/-- The name of a case and its content, if it has one. -/
def case? : Json → Option (String × Option Json)
  | string (some t) => some (String.ofList t, none)
  | object [(some key, j)] => some (String.ofList key, some j)
  | _ => none

/-- The name of a case without content. -/
def plainCase? (j : Json) : Option String :=
  match case? j with
  | some (name, none) => some name
  | some (name, some null) => some name
  | _ => none

/-- The content of the only member with a key: nothing if there is none, and no answer if there
are two. -/
def field? (key : String) (ms : List (Option Text × Json)) : Option (Option Json) :=
  match ms.filter (·.1 == some key.toList) with
  | [] => some none
  | [(_, j)] => some (some j)
  | _ => none

/-- Whether the keys of all members are texts. -/
def keysAreTexts (ms : List (Option Text × Json)) : Bool := ms.all (·.1.isSome)

/-- The string with a text of the library. -/
def ofString (s : String) : Json := ofText s.toList

end Lineage.Json

namespace Lineage

/-! ## Values -/

/-- Reads a value. -/
def Value.ofJson? (j : Json) : Option Value :=
  if j.isStrict then (Value.ofJson j).toOption else none

/-! ## Kinds and modes -/

/-- Writes a kind. -/
def Kind.toJson : Kind → Json
  | .bool => .ofString "Bool"
  | .number => .ofString "Number"
  | .text => .ofString "Text"

/-- Reads a kind. -/
def Kind.ofJson? (j : Json) : Option Kind :=
  match j.plainCase? with
  | some "Bool" => some .bool
  | some "Number" => some .number
  | some "Text" => some .text
  | _ => none

/-- Writes a mode. -/
def Mode.toJson : Mode → Json
  | .full => .ofString "Full"
  | .diff => .ofString "Diff"

/-- Reads a mode. -/
def Mode.ofJson? (j : Json) : Option Mode :=
  match j.plainCase? with
  | some "Full" => some .full
  | some "Diff" => some .diff
  | _ => none

/-! ## Notes -/

/-- Writes a derivation. -/
def Derivation.toJson : Derivation → Json
  | .selfReference => .ofString "SelfReference"
  | .expression raw => .object [(some "Expression".toList, .ofText raw)]

/-- Reads a derivation. -/
def Derivation.ofJson? (j : Json) : Option Derivation :=
  match j.case? with
  | some ("SelfReference", none) => some .selfReference
  | some ("SelfReference", some .null) => some .selfReference
  | some ("Expression", some (.string (some raw))) => some (.expression raw)
  | _ => none

/-- Writes a note. -/
def Note.toJson (n : Note) : Json :=
  .object [(some "comment".toList, (n.comment.map Json.ofText).getD .null),
    (some "derivation".toList, (n.derivation.map Derivation.toJson).getD .null)]

/-- Reads the fields of a note. -/
def Note.ofFields? (comment derivation : Json) : Option Note :=
  match Json.nullable? Json.text? comment, Json.nullable? Derivation.ofJson? derivation with
  | some c, some d => some ⟨c, d⟩
  | _, _ => none

/-- Reads a note; missing members are null. -/
def Note.ofJson? : Json → Option Note
  | .array [comment, derivation] => Note.ofFields? comment derivation
  | .object ms =>
    match Json.keysAreTexts ms, Json.field? "comment" ms, Json.field? "derivation" ms with
    | true, some comment, some derivation =>
      Note.ofFields? (comment.getD .null) (derivation.getD .null)
    | _, _, _ => none
  | _ => none

/-! ## Names of properties -/

/-- Writes the name of a property. -/
def PropertyId.toJson (i : PropertyId) : Json :=
  .object [(some "section".toList, .ofText i.owner), (some "key".toList, .ofText i.key)]

/-- Reads the name of a property. -/
def PropertyId.ofJson? : Json → Option PropertyId
  | .array [.string (some owner), .string (some key)] => some ⟨owner, key⟩
  | .object ms =>
    match Json.keysAreTexts ms, Json.field? "section" ms, Json.field? "key" ms with
    | true, some (some (.string (some owner))), some (some (.string (some key))) =>
      some ⟨owner, key⟩
    | _, _, _ => none
  | _ => none

end Lineage
