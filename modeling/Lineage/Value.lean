import Lineage.Number.Layout
import Lineage.Number.Literal
/-!
# Values

A property holds a truth value, a number or a text. `infer` reads the value of a literal and
`literal` writes it.
-/
namespace Lineage

/-- The kinds of value, in the order in which a section lists them. -/
inductive Kind where
  | bool
  | number
  | text
deriving DecidableEq, Repr

namespace Kind

/-- All kinds, in listing order. -/
def all : List Kind := [.bool, .number, .text]

/-- The word for a kind. -/
def name : Kind → String
  | bool => "boolean"
  | number => "number"
  | text => "text"

end Kind

/-- The value of a property. -/
inductive Value where
  | bool (b : Bool)
  | number (x : Float)
  | text (t : Text)

namespace Value

/-- Values are compared as numbers are: no number differs from itself, and the zeros are equal. -/
def beq : Value → Value → Bool
  | bool a, bool b => a == b
  | number a, number b => a == b
  | text a, text b => a == b
  | _, _ => false

instance : BEq Value := ⟨beq⟩

/-- The kind of a value. -/
def kind : Value → Kind
  | bool _ => .bool
  | number _ => .number
  | text _ => .text

/-- The truth value, if it is one. -/
def bool? : Value → Option Bool
  | bool b => some b
  | _ => none

/-- The number, if it is one. -/
def number? : Value → Option Float
  | number x => some x
  | _ => none

/-- The text, if it is one. -/
def text? : Value → Option Text
  | text t => some t
  | _ => none

/-- The word for true. -/
def trueWord : Text := ['t', 'r', 'u', 'e']

/-- The word for false. -/
def falseWord : Text := ['f', 'a', 'l', 's', 'e']

/-- The text that a value is written as and stands for in a reference. -/
def literal : Value → Text
  | bool true => trueWord
  | bool false => falseWord
  | number x => Number.format x
  | text t => t

/-- The value of a literal, blanks around it apart: a number, a truth value (`+` and `-` are short
for the words), or else the text itself. -/
def infer (t : Text) : Value :=
  match Number.parse? t.trim with
  | some x => number x
  | none =>
    if t.trim = ['+'] ∨ t.trim = trueWord then bool true
    else if t.trim = ['-'] ∨ t.trim = falseWord then bool false
    else text t.trim

end Value

end Lineage
