import Lineage.Number.Layout
import Lineage.Number.Literal
import Lineage.Text.Search
/-!
# Operators and operands

An operator combines the operand before it with the operand after it: two numbers by arithmetic,
texts by joining and cutting. Every way in which an expression can fail is a `Failure`.
-/
namespace Lineage.Expression

/-- The five operators. -/
inductive Operator where
  | plus
  | minus
  | times
  | divided
  | power
deriving DecidableEq, Repr

namespace Operator

/-- The character of an operator. -/
def char : Operator → Char
  | plus => '+'
  | minus => '-'
  | times => '*'
  | divided => '/'
  | power => '^'

/-- The operator that a character stands for. -/
def ofChar? : Char → Option Operator
  | '+' => some plus
  | '-' => some minus
  | '*' => some times
  | '/' => some divided
  | '^' => some power
  | _ => none

@[simp] theorem ofChar?_char (op : Operator) : ofChar? op.char = some op := by cases op <;> rfl

end Operator

/-- Why an expression has no result. -/
inductive Failure where
  /-- Groups stand inside each other more than 64 deep. -/
  | tooDeep
  /-- A `(` in the text is not closed. -/
  | unclosed (text : Text)
  /-- A `)` in the text closes nothing. -/
  | unopened (text : Text)
  /-- The text still holds an operator after its budget of steps. -/
  | irreducible (text : Text)
  /-- Only `+` and `-` may be repeated. -/
  | repeated (op : Operator)
  /-- A repeated operator stands alone. -/
  | noOperand (run : Text)
  | noLeft (op : Operator)
  | noRight (op : Operator)
  | divisionByZero (a b : Float)
  | notFinite (a : Float) (op : Operator) (b : Float)
  /-- Texts can only be joined and cut. -/
  | notNumeric (op : Operator) (left right : Text)

/-- The wording of a failure. -/
def Failure.message : Failure → String
  | tooDeep => "parentheses nested deeper than 64"
  | unclosed t => s!"unbalanced '(' in '{String.ofList t}'"
  | unopened t => s!"unbalanced ')' in '{String.ofList t}'"
  | irreducible t => s!"'{String.ofList t}' does not reduce"
  | repeated op => s!"'{op.char}' cannot be repeated; only '+' and '-' have unary forms"
  | noOperand run => s!"'{String.ofList run}' has no operand"
  | noLeft op => s!"'{op.char}' has no left operand"
  | noRight op => s!"'{op.char}' has no right operand"
  | divisionByZero a b =>
    s!"division by zero in '{String.ofList (Number.display a)} / " ++
      s!"{String.ofList (Number.display b)}'"
  | notFinite a op b =>
    s!"'{String.ofList (Number.format a)} {op.char} " ++
      s!"{String.ofList (Number.format b)}' has no finite result"
  | notNumeric op l r =>
    s!"'{op.char}' needs numeric operands, got '{String.ofList l}' and '{String.ofList r}'"

/-- The value of an operation on two numbers, finite or not. -/
def Operator.apply (op : Operator) (a b : Float) : Float :=
  match op with
  | .plus => a + b
  | .minus => a - b
  | .times => a * b
  | .divided => a / b
  | .power => a.pow b

/-- Arithmetic on two numbers; the result must be finite. -/
def arithmetic (a : Float) (op : Operator) (b : Float) : Except Failure Float :=
  if op = .divided ∧ b == 0 then .error (.divisionByZero a b)
  else if (op.apply a b).isFinite then .ok (op.apply a b)
  else .error (.notFinite a op b)

/-- Joins two texts, or takes the first place of the right one out of the left one. -/
def combineTexts (left : Text) (op : Operator) (right : Text) : Except Failure Text :=
  match op with
  | .plus => .ok (left ++ right)
  | .minus => .ok (left.replaceFirst right [])
  | op => .error (.notNumeric op left right)

/-- The result of an operation: arithmetic if both operands are numeric literals. -/
def combine (left : Text) (op : Operator) (right : Text) : Except Failure Text :=
  match Number.parse? left, Number.parse? right with
  | some a, some b => (arithmetic a op b).map Number.format
  | _, _ => combineTexts left op right

end Lineage.Expression
