import Lineage.Text.Search
import Lineage.Value
/-!
# Notes and properties

The comment behind a property holds free text and may hold a tag that says how the value was
derived: `{...}` for an expression, or the word `slf` for a text that embeds its owner's name.

A property is a key with a value, a note and marks that say where it comes from: its owner,
whether it was inherited, whether it was changed since, and whether it is a copy.
-/
/-! ## Notes -/

namespace Lineage

/-- How a value was derived. An heir derives it again in its own place. -/
inductive Derivation where
  /-- The text embeds the name of its owner. -/
  | selfReference
  /-- The value of this raw text. -/
  | expression (raw : Text)
deriving DecidableEq, Repr

/-- Whether the derivation is an expression. -/
def Derivation.isExpression : Derivation → Bool
  | expression _ => true
  | selfReference => false

/-- A comment in two parts. -/
structure Note where
  /-- The free text with its leading mark. -/
  comment : Option Text
  derivation : Option Derivation
deriving DecidableEq, Repr

namespace Note

/-- Nothing is noted. -/
def blank : Note := ⟨none, none⟩

/-- The marks that start a comment. -/
def isMark (c : Char) : Bool := c == '#' || c == ';'

/-- The tag of a self-reference. -/
def selfTag : Text := ['s', 'l', 'f']

/-- The text before, inside and behind the first `{` and the next `}` behind it. -/
def braces? (t : Text) : Option (Text × Text × Text) :=
  match t.splitAt? '{' with
  | some (before, behind) => (behind.splitAt? '}').map fun p => (before, p.1, p.2)
  | none => none

/-- The expression tag of a comment, without its braces. -/
def expressionSource (comment : Text) : Option Text := (braces? comment).map fun p => p.2.1.trim

/-- The characters of words: letters and digits of ASCII, and `_`. -/
def isWordChar (c : Char) : Bool := c.isAlphanum || c == '_'

/-- Takes out the first self-reference tag that stands as a word of its own, where `last` is the
character read before. -/
def takeSelfTag (last : Option Char) : Text → Option Text
  | [] => none
  | c :: r =>
    if selfTag.isPrefixOf (c :: r) && !last.any isWordChar
        && !((c :: r).drop selfTag.length).head?.any isWordChar then
      some ((c :: r).drop selfTag.length)
    else (takeSelfTag (some c) r).map (c :: ·)

/-- The comment that a text without tags is: none if only marks and blanks are left. -/
def commentOf (t : Text) : Option Text :=
  if (Text.trim (t.trimEnd.dropWhile isMark)).isEmpty then none else some t.trimEnd

/-- Reads a raw comment. An expression tag comes before a self-reference tag. -/
def parse (raw : Text) : Note :=
  let (text, expression) := match braces? raw.trim with
    | some (before, inside, behind) => (before ++ behind, some (Derivation.expression inside.trim))
    | none => (raw.trim, none)
  match takeSelfTag none text with
  | some text => ⟨commentOf text, expression.or (some .selfReference)⟩
  | none => ⟨commentOf text, expression⟩

/-- Whether nothing is noted. -/
def isEmpty (a : Note) : Bool := a.comment.isNone && a.derivation.isNone

/-- Whether an expression is noted. -/
def isExpression (a : Note) : Bool := a.derivation.any Derivation.isExpression

/-- Writes a note as a comment, with the tag behind the free text. -/
def render (a : Note) : Text :=
  match a.comment, a.derivation with
  | none, none => []
  | some c, none => c
  | some c, some .selfReference => c ++ ' ' :: selfTag
  | some c, some (.expression e) => c ++ ' ' :: '{' :: e ++ ['}']
  | none, some .selfReference => '#' :: selfTag
  | none, some (.expression e) => '#' :: ' ' :: '{' :: e ++ ['}']

end Note

/-! ## Properties -/

/-- An entry of a section. -/
structure Property where
  key : Text
  value : Value
  note : Note
  /-- The name of the section that holds the property, if one does. -/
  owner : Option Text
  inherited : Bool
  modified : Bool
  cloned : Bool
deriving BEq

/-- Which property of a document is meant: its section and its key. -/
structure PropertyId where
  owner : Text
  key : Text
deriving DecidableEq, Repr

/-- The section and the key with a point between them. -/
def PropertyId.text (i : PropertyId) : Text := i.owner ++ '.' :: i.key

namespace Property

/-- A property that no section holds. -/
def new (key : Text) (value : Value) (note : Note) : Property :=
  ⟨key, value, note, none, false, false, false⟩

/-- The kind of the value. -/
def kind (p : Property) : Kind := p.value.kind

/-- How the value was derived. -/
def derivation (p : Property) : Option Derivation := p.note.derivation

/-- Whether the property differs from what its section inherits: it is local, or it was changed. -/
def isDifference (p : Property) : Bool := !p.inherited || p.modified

/-- Replaces the value, which is then no longer derived. -/
def setValue (p : Property) (v : Value) : Property :=
  { p with value := v, note := { p.note with derivation := none }, modified := true }

/-- Replaces the free text of the comment. -/
def setComment (p : Property) (c : Option Text) : Property :=
  { p with note := { p.note with comment := c } }

/-- A copy that no section holds. -/
def detach (p : Property) : Property := { p with owner := none, cloned := true }

/-- Gives the property to a section. -/
def attach (p : Property) (owner : Text) : Property := { p with owner := some owner }

/-- Marks the property as inherited and unchanged. -/
def markInherited (p : Property) : Property := { p with inherited := true, modified := false }

/-- The copy of a parent's property that an heir holds. -/
def inheritedBy (p : Property) (heir : Text) : Property := (p.detach.markInherited).attach heir

/-- Replaces the value by a value derived anew. -/
def setDerived (p : Property) (v : Value) : Property := { p with value := v }

/-- Which property this is, if a section holds it. -/
def id? (p : Property) : Option PropertyId := p.owner.map fun o => ⟨o, p.key⟩

/-- The line of a property: `key = value` and the note, if there is one. -/
def render (p : Property) : Text :=
  p.key ++ ' ' :: '=' :: ' ' :: p.value.literal ++
    (if p.note.isEmpty then [] else ' ' :: p.note.render)

end Property

end Lineage
