import Lineage.Number.Layout
import Lineage.Text.Lines
/-!
# JSON values

JSON values as trees. A string may name half of a surrogate pair, and then stands for no text.
Values are printed on one line, or with every item and member on a line of its own.
-/
namespace Lineage

/-- A JSON value; the members of an object stand in the order of writing. -/
inductive Json where
  | null
  | bool (b : Bool)
  /-- A number; out of the range of doubles it is infinite. -/
  | number (x : Float)
  /-- A string; `none` has an unpaired surrogate. -/
  | string (t : Option Text)
  | array (items : List Json)
  | object (members : List (Option Text × Json))

namespace Json

/-- The string with a text. -/
def ofText (t : Text) : Json := string (some t)

mutual

/-- Whether the value nests arrays and objects at most `depth` deep, its numbers are finite and
its strings stand for texts. -/
def fits (depth : Nat) : Json → Bool
  | null => true
  | bool _ => true
  | number x => x.isFinite
  | string t => t.isSome
  | array items => match depth with
    | 0 => false
    | depth + 1 => fitItems depth items
  | object members => match depth with
    | 0 => false
    | depth + 1 => fitMembers depth members

/-- Whether all items fit. -/
def fitItems (depth : Nat) : List Json → Bool
  | [] => true
  | j :: js => fits depth j && fitItems depth js

/-- Whether all members fit. -/
def fitMembers (depth : Nat) : List (Option Text × Json) → Bool
  | [] => true
  | (key, j) :: ms => key.isSome && fits depth j && fitMembers depth ms

end

/-- How deep arrays and objects may stand inside each other. -/
def maxDepth : Nat := 127

/-- Whether a reader of whole values accepts the value. -/
def isStrict (j : Json) : Bool := j.fits maxDepth

end Json

end Lineage

/-! ## Printing -/

namespace Lineage.Json

/-- JSON keeps `.0` at whole numbers, and has exponents from `10 ^ 16` on and below `10 ^ -5`. -/
def numbers : Number.Layout := ⟨.even, ['.', '0'], fun e => -5 ≤ e ∧ e < 16⟩

/-- The four hexadecimal digits of a control character. -/
def hexText (n : Nat) : Text := ['0', '0', Nat.digitChar (n / 16), Nat.digitChar (n % 16)]

/-- A character in a string. -/
def escape (c : Char) : Text :=
  match c with
  | '"' => ['\\', '"']
  | '\\' => ['\\', '\\']
  | '\x08' => ['\\', 'b']
  | '\x0C' => ['\\', 'f']
  | '\n' => ['\\', 'n']
  | '\r' => ['\\', 'r']
  | '\t' => ['\\', 't']
  | c => if c.toNat < 0x20 then '\\' :: 'u' :: hexText c.toNat else [c]

/-- A string. -/
def quote (t : Text) : Text := '"' :: t.flatMap escape ++ ['"']

/-- A number; infinities and no numbers are null. -/
def numberText (x : Float) : Text := if x.isFinite then numbers.text x else ['n', 'u', 'l', 'l']

mutual

/-- A value on one line. -/
def compact : Json → Text
  | null => ['n', 'u', 'l', 'l']
  | bool b => if b then ['t', 'r', 'u', 'e'] else ['f', 'a', 'l', 's', 'e']
  | number x => numberText x
  | string t => quote (t.getD [])
  | array items => '[' :: compactItems items ++ [']']
  | object members => '{' :: compactMembers members ++ ['}']

/-- Items with commas between them. -/
def compactItems : List Json → Text
  | [] => []
  | [j] => compact j
  | j :: js => compact j ++ ',' :: compactItems js

/-- Members with commas between them. -/
def compactMembers : List (Option Text × Json) → Text
  | [] => []
  | [(key, j)] => quote (key.getD []) ++ ':' :: compact j
  | (key, j) :: ms => quote (key.getD []) ++ ':' :: compact j ++ ',' :: compactMembers ms

end

/-- The start of a line at a depth. -/
def newLine (depth : Nat) : Text := '\n' :: List.replicate (2 * depth) ' '

mutual

/-- A value on lines that are indented by two spaces for each depth. -/
def pretty (depth : Nat) : Json → Text
  | array (j :: js) => '[' :: prettyItems (depth + 1) (j :: js) ++ newLine depth ++ [']']
  | object (m :: ms) => '{' :: prettyMembers (depth + 1) (m :: ms) ++ newLine depth ++ ['}']
  | array [] => ['[', ']']
  | object [] => ['{', '}']
  | null => ['n', 'u', 'l', 'l']
  | bool b => if b then ['t', 'r', 'u', 'e'] else ['f', 'a', 'l', 's', 'e']
  | number x => numberText x
  | string t => quote (t.getD [])

/-- Items on lines of their own. -/
def prettyItems (depth : Nat) : List Json → Text
  | [] => []
  | [j] => newLine depth ++ pretty depth j
  | j :: js => newLine depth ++ pretty depth j ++ ',' :: prettyItems depth js

/-- Members on lines of their own. -/
def prettyMembers (depth : Nat) : List (Option Text × Json) → Text
  | [] => []
  | [(key, j)] => newLine depth ++ quote (key.getD []) ++ ':' :: ' ' :: pretty depth j
  | (key, j) :: ms =>
    newLine depth ++ quote (key.getD []) ++ ':' :: ' ' :: pretty depth j ++
      ',' :: prettyMembers depth ms

end

end Lineage.Json
