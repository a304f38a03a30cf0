import Lineage.Expression.Operator
/-!
# Evaluation of texts

In a text without groups, the leftmost operator is applied until none is left. A place in the text
is given by the text before it, written backwards, and the text after it. A `+` or `-` that starts a
number is a sign and no operator; operands reach to the next space or operator.

A group in parentheses is evaluated before the text around it and its result is written in its
place. Groups are taken from left to right and may stand inside each other up to `maxDepth` deep.
-/
/-! ## Texts without groups -/

namespace Lineage.Expression

/-- Whether a character is one of the five operator characters. -/
def isOperatorChar (c : Char) : Bool := (Operator.ofChar? c).isSome

/-- Whether a number can go on with this text: a digit or a point comes next. -/
def startsNumber : Text → Bool
  | c :: _ => c.isDigit || c == '.'
  | [] => false

/-- Whether a sign may stand behind this text: at the start, behind a space or an operator
character, or behind a digit and an exponent mark. -/
def allowsSign : Text → Bool
  | [] => true
  | c :: r =>
    c == ' ' || isOperatorChar c || ((c == 'e' || c == 'E') && (r.head?.any Char.isDigit))

/-- Whether the character `c` between `before` and `after` is the sign of a number. -/
def isSign (before : Text) (c : Char) (after : Text) : Bool :=
  (c == '+' || c == '-') && startsNumber after && allowsSign before

/-- The operator that stands between `before` and `after`, unless it is a sign. -/
def operatorAt? (before : Text) (c : Char) (after : Text) : Option Operator :=
  if isSign before c after then none else Operator.ofChar? c

/-- Whether an operand ends at `c`: at a space or an operator. -/
def isBoundary (before : Text) (c : Char) (after : Text) : Bool :=
  c == ' ' || (operatorAt? before c after).isSome

/-- An operator in its place. -/
structure Place where
  /-- The text before the operator, backwards. -/
  before : Text
  op : Operator
  after : Text

/-- The leftmost operator of `after`, where `before` has been read already. -/
def firstOperator? (before : Text) : Text → Option Place
  | [] => none
  | c :: after =>
    match operatorAt? before c after with
    | some op => some ⟨before, op, after⟩
    | none => firstOperator? (c :: before) after

/-- The operand that ends where `after` begins, backwards. -/
def operandBefore : (before after : Text) → Text
  | [], _ => []
  | c :: before, after =>
    if isBoundary before c after then [] else c :: operandBefore before (c :: after)

/-- The operand that begins where `before` ends. -/
def operandAfter (before : Text) : (after : Text) → Text
  | [] => []
  | c :: after =>
    if isBoundary before c after then [] else c :: operandAfter (c :: before) after

/-- Whether a run of operators is a marker behind its operand: nothing comes next, or a space or
an operator character. -/
def isPostfix : (after : Text) → Bool
  | [] => true
  | c :: _ => c == ' ' || isOperatorChar c

/-- Repeats the last character of `operand`, given backwards, or drops characters from its end,
`n` times. -/
def markEnd (op : Operator) (n : Nat) (last : Char) (operand : Text) : Text :=
  if op = .plus then List.replicate n last ++ operand else operand.drop n

/-- Applies a run of `n` operators, `n` at least two, that stands between `before` and `after`. -/
def applyRun (before : Text) (op : Operator) (n : Nat) (after : Text) : Except Failure Text :=
  let run := List.replicate n op.char
  if op = .plus ∨ op = .minus then
    if isPostfix after then
      let operand := operandBefore before (run ++ after)
      match operand with
      | [] => .error (.noOperand run)
      | last :: _ =>
        .ok ((before.drop operand.length).reverse ++ (markEnd op n last operand).reverse ++ after)
    else
      let operand := operandAfter (run ++ before) after
      match operand with
      | [] => .error (.noOperand run)
      | first :: _ =>
        .ok (before.reverse ++ markEnd op n first operand ++ after.drop operand.length)
  else .error (.repeated op)

/-- Applies a single operator to the operands on both sides; spaces around it are dropped. -/
def applyBinary (before : Text) (op : Operator) (after : Text) : Except Failure Text :=
  let isSpace := fun c : Char => c == ' '
  let leftEnd := before.dropWhile isSpace
  let rightStart := after.dropWhile isSpace
  let left := operandBefore leftEnd (before.takeWhile isSpace ++ op.char :: after)
  let right := operandAfter (after.takeWhile isSpace ++ op.char :: before) rightStart
  if left.isEmpty then .error (.noLeft op)
  else if right.isEmpty then .error (.noRight op)
  else (combine left.reverse op right).map fun result =>
    (leftEnd.drop left.length).reverse ++ result ++ rightStart.drop right.length

/-- Applies the operator in its place, together with its repetitions behind it. -/
def Place.apply (p : Place) : Except Failure Text :=
  let more := p.after.takeWhile (· == p.op.char)
  if more.isEmpty then applyBinary p.before p.op p.after
  else applyRun p.before p.op (more.length + 1) (p.after.drop more.length)

/-- Applies leftmost operators until none is left, in at most `budget` steps. -/
def reduceWithin (whole : Text) (budget : Nat) (t : Text) : Except Failure Text :=
  match firstOperator? [] t, budget with
  | none, _ => .ok t
  | some _, 0 => .error (.irreducible whole)
  | some p, budget + 1 =>
    match p.apply with
    | .ok next => reduceWithin whole budget next.trim
    | .error e => .error e

/-- The result of a text without groups. A lone `+` or `-` is a truth value and stays. -/
def reduce (t : Text) : Except Failure Text :=
  if t.trim = ['+'] ∨ t.trim = ['-'] then .ok t.trim
  else reduceWithin t.trim (t.trim.utf8Size * 4 + 16) t.trim

/-! ## Groups -/

/-- How deep groups may stand inside each other. -/
def maxDepth : Nat := 64

/-- The text up to the `)` that closes a group and the text behind it; `depth` groups are open
inside. -/
def splitClose? : (depth : Nat) → Text → Option (Text × Text)
  | _, [] => none
  | 0, ')' :: r => some ([], r)
  | depth + 1, ')' :: r => (splitClose? depth r).map fun p => (')' :: p.1, p.2)
  | depth, '(' :: r => (splitClose? (depth + 1) r).map fun p => ('(' :: p.1, p.2)
  | depth, c :: r => (splitClose? depth r).map fun p => (c :: p.1, p.2)

theorem splitClose?_eq_some {depth : Nat} {t inner rest : Text}
    (h : splitClose? depth t = some (inner, rest)) : t = inner ++ ')' :: rest := by
  fun_induction splitClose? depth t generalizing inner rest with
  | case1 => simp at h
  | case2 r => simp at h; obtain ⟨rfl, rfl⟩ := h; rfl
  | case3 depth r ih | case4 depth r ih | case5 depth c r _ _ _ ih =>
    obtain ⟨⟨i, s⟩, hs, he⟩ := Option.map_eq_some_iff.1 h
    simp only [Prod.mk.injEq] at he
    obtain ⟨rfl, rfl⟩ := he
    simp [ih hs]

/-- Evaluates a group at the given depth, of which `done` holds the part without parentheses that
is evaluated already and `rest` the part to come. -/
def evaluateGroup (depth : Nat) (whole done rest : Text) : Except Failure Text :=
  match _ho : Text.splitAt? '(' rest with
  | none =>
    if (done ++ rest).contains ')' then .error (.unopened whole) else reduce (done ++ rest)
  | some (before, behind) =>
    match _hc : splitClose? 0 behind with
    | none => .error (.unclosed (done ++ rest))
    | some (inner, rest') =>
      if maxDepth ≤ depth then .error .tooDeep
      else match evaluateGroup (depth + 1) inner [] inner with
        | .ok result => evaluateGroup depth whole (done ++ before ++ result) rest'
        | .error e => .error e
termination_by rest.length
decreasing_by
  all_goals
    have h1 := congrArg List.length (Text.splitAt?_eq_some_iff.1 _ho).1
    have h2 := congrArg List.length (splitClose?_eq_some _hc)
    simp only [List.length_append, List.length_cons] at h1 h2
    omega

/-- The result of an expression: groups first, then operators from left to right. -/
def evaluate (t : Text) : Except Failure Text := evaluateGroup 0 t [] t

end Lineage.Expression
