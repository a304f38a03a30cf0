import Mathlib.Data.List.TakeWhile
import Lineage.Expression.Group
/-!
# One step of a reduction

What the leftmost operator is (`Leftmost`), and what applying it does: the parts of the text around
a single operator (`applyBinary_ok`) and around a run of them (`applyRun_ok`), and the failures that
a step can end with (`isOfStep_of_apply`).
-/
namespace Lineage.Expression

/-- The number of operators in `t`, where `before`, backwards, and `after` stand around it. -/
def operators (before : Text) : (t after : Text) → Nat
  | [], _ => 0
  | c :: t, after =>
    (operatorAt? before c (t ++ after)).isSome.toNat + operators (c :: before) t after

variable {b s t a before after next left right : Text} {op : Operator} {p : Place} {n : Nat}
  {c : Char}

theorem operators_cons (b : Text) (c : Char) (t a : Text) : operators b (c :: t) a =
    (operatorAt? b c (t ++ a)).isSome.toNat + operators (c :: b) t a := rfl

theorem operators_append (b s t a : Text) :
    operators b (s ++ t) a = operators b s (t ++ a) + operators (s.reverse ++ b) t a := by
  induction s generalizing b with
  | nil => simp [operators]
  | cons c s ih => simp [operators, ih, Nat.add_assoc]

theorem isSome_operatorAt? (b : Text) (c : Char) (a : Text) :
    (operatorAt? b c a).isSome = (!isSign b c a && isOperatorChar c) := by
  unfold operatorAt? isOperatorChar
  cases isSign b c a <;> rfl

/-! ## The leftmost operator -/

theorem char_of_ofChar? (h : Operator.ofChar? c = some op) : op.char = c := by
  unfold Operator.ofChar? at h
  split at h <;> cases h <;> rfl

theorem char_of_operatorAt? (h : operatorAt? b c a = some op) : op.char = c := by
  unfold operatorAt? at h
  split at h
  · cases h
  · exact char_of_ofChar? h

@[simp] theorem isOperatorChar_char (op : Operator) : isOperatorChar op.char = true := by
  cases op <;> rfl

theorem startsNumber_char (op : Operator) (a : Text) : startsNumber (op.char :: a) = false := by
  cases op <;> rfl

/-- A place in a text before which no operator stands. -/
structure Leftmost (t : Text) (p : Place) : Prop where
  text : t = p.before.reverse ++ p.op.char :: p.after
  clear : operators [] p.before.reverse (p.op.char :: p.after) = 0
  here : operatorAt? p.before p.op.char p.after = some p.op

/-- The first operator has none before it. -/
theorem exists_of_firstOperator? (h : firstOperator? b t = some p) :
    ∃ s, p.before = s.reverse ++ b ∧ t = s ++ p.op.char :: p.after ∧
      operators b s (p.op.char :: p.after) = 0 ∧
      operatorAt? p.before p.op.char p.after = some p.op := by
  induction t generalizing b with
  | nil => cases h
  | cons c t ih =>
    rw [firstOperator?] at h
    split at h
    · next op hop =>
      cases h
      obtain rfl := char_of_operatorAt? hop
      exact ⟨[], rfl, rfl, rfl, hop⟩
    · next hn =>
      obtain ⟨s, hs, ht, hclear, hhere⟩ := ih h
      refine ⟨c :: s, by simp [hs], by simp [ht], ?_, hhere⟩
      rw [operators_cons, ← ht, hn, hclear]
      rfl

theorem leftmost_of_firstOperator? (h : firstOperator? [] t = some p) : Leftmost t p := by
  obtain ⟨s, hs, ht, hclear, hhere⟩ := exists_of_firstOperator? h
  rw [List.append_nil] at hs
  have hs' : p.before.reverse = s := by rw [hs, List.reverse_reverse]
  exact ⟨hs' ▸ ht, hs' ▸ hclear, hhere⟩

/-! ## Operands -/

/-- The right operand is a beginning of what follows, up to a boundary. -/
theorem exists_operandAfter (b t : Text) : ∃ rest, t = operandAfter b t ++ rest ∧
    operators b (operandAfter b t) rest = 0 ∧
    ∀ c r, rest = c :: r → isBoundary ((operandAfter b t).reverse ++ b) c r = true := by
  induction t generalizing b with
  | nil => exact ⟨[], rfl, rfl, by simp⟩
  | cons c t ih =>
    rw [operandAfter]
    split
    · next hb =>
      refine ⟨c :: t, rfl, rfl, fun d r h => ?_⟩
      cases h
      exact hb
    · next hb =>
      obtain ⟨rest, ht, hclear, hrest⟩ := ih (c :: b)
      refine ⟨rest, congrArg (c :: ·) ht, ?_, by simpa using hrest⟩
      rw [operators_cons, hclear, ← ht]
      simp only [isBoundary, Bool.or_eq_true, not_or, Bool.not_eq_true] at hb
      rw [hb.2]
      rfl

/-- The left operand is an end of what precedes, from a boundary. -/
theorem exists_operandBefore (b a : Text) : ∃ rest, b = operandBefore b a ++ rest ∧
    ∀ c r, rest = c :: r → isBoundary r c ((operandBefore b a).reverse ++ a) = true := by
  induction b generalizing a with
  | nil => exact ⟨[], rfl, by simp⟩
  | cons c b ih =>
    rw [operandBefore]
    split
    · next hb =>
      refine ⟨c :: b, rfl, fun d r h => ?_⟩
      cases h
      exact hb
    · obtain ⟨rest, hb, hrest⟩ := ih (c :: a)
      exact ⟨rest, congrArg (c :: ·) hb, by simpa using hrest⟩

/-! ## Applying an operator -/

theorem takeWhile_eq_replicate (d : Char) (t : Text) : ∃ n,
    (t.takeWhile fun c => c == d) = List.replicate n d :=
  ⟨_, List.eq_replicate_iff.2 ⟨rfl, fun c hc => by simpa using List.mem_takeWhile_imp hc⟩⟩

/-- The parts of a text around a single operator, from the middle outwards: spaces, the operands,
and what is kept. -/
theorem applyBinary_ok (h : applyBinary before op after = .ok next) :
    ∃ m n left outer right rest result,
      before = List.replicate m ' ' ++ left ++ outer ∧
      after = List.replicate n ' ' ++ right ++ rest ∧
      (∀ c r, outer = c :: r →
        isBoundary r c ((List.replicate m ' ' ++ left).reverse ++ op.char :: after) = true) ∧
      operators (List.replicate n ' ' ++ op.char :: before) right rest = 0 ∧
      (∀ c r, rest = c :: r →
        isBoundary ((List.replicate n ' ' ++ right).reverse ++ op.char :: before) c r = true) ∧
      combine left.reverse op right = .ok result ∧
      next = outer.reverse ++ result ++ rest := by
  simp only [applyBinary] at h
  have hbefore := List.takeWhile_append_dropWhile (p := fun c => c == ' ') (l := before)
  have hafter := List.takeWhile_append_dropWhile (p := fun c => c == ' ') (l := after)
  obtain ⟨m, hm⟩ := takeWhile_eq_replicate ' ' before
  obtain ⟨n, hn⟩ := takeWhile_eq_replicate ' ' after
  rw [hm] at hbefore h
  rw [hn] at hafter h
  obtain ⟨outer, houter, hl⟩ := exists_operandBefore (before.dropWhile fun c => c == ' ')
    (List.replicate m ' ' ++ op.char :: after)
  obtain ⟨rest, hrest, hclear, hr⟩ := exists_operandAfter
    (List.replicate n ' ' ++ op.char :: before) (after.dropWhile fun c => c == ' ')
  revert h houter hrest hl hclear hr
  generalize operandBefore _ _ = left
  generalize operandAfter _ _ = right
  intro h houter hl hrest hclear hr
  rw [houter, hrest, List.drop_left, List.drop_left] at h
  split at h
  · cases h
  · split at h
    · cases h
    · cases hc : combine left.reverse op right with
      | error e => simp [hc, Except.map] at h
      | ok result =>
        simp only [hc, Except.map, Except.ok.injEq] at h
        refine ⟨m, n, left, outer, right, rest, result, ?_, ?_, ?_, hclear, ?_, hc, h.symm⟩
        · rw [List.append_assoc, ← houter, hbefore]
        · rw [List.append_assoc, ← hrest, hafter]
        · simpa using hl
        · simpa using hr

/-- What a run of operators marks: the operand before it, or else the one behind it. -/
theorem applyRun_ok (h : applyRun before op n after = .ok next) :
    (∃ c l outer, operandBefore before (List.replicate n op.char ++ after) = c :: l ∧
      before = c :: l ++ outer ∧
      next = outer.reverse ++ (markEnd op n c (c :: l)).reverse ++ after) ∨
    ∃ c l rest, isPostfix after = false ∧
      operandAfter (List.replicate n op.char ++ before) after = c :: l ∧
      after = c :: l ++ rest ∧ operators (List.replicate n op.char ++ before) (c :: l) rest = 0 ∧
      next = before.reverse ++ markEnd op n c (c :: l) ++ rest := by
  obtain ⟨outer, houter, -⟩ := exists_operandBefore before (List.replicate n op.char ++ after)
  obtain ⟨rest, hrest, hclear, -⟩ := exists_operandAfter (List.replicate n op.char ++ before) after
  simp only [applyRun] at h
  split at h
  · split at h
    · split at h
      · cases h
      · next c l hop =>
        rw [hop] at houter h
        rw [houter, List.drop_left] at h
        cases h
        exact .inl ⟨c, l, outer, hop, houter, rfl⟩
    · next hpost =>
      split at h
      · cases h
      · next c l hop =>
        rw [hop] at hrest hclear h
        rw [hrest, List.drop_left] at h
        cases h
        exact .inr ⟨c, l, rest, by simpa using hpost, hop, hrest, hclear, rfl⟩
  · cases h

/-- A step applies a single operator, or an operator with its repetitions. -/
theorem apply_ok (h : p.apply = .ok next) : applyBinary p.before p.op p.after = .ok next ∨
    ∃ n rest, p.after = List.replicate n p.op.char ++ rest ∧
      applyRun p.before p.op (n + 1) rest = .ok next := by
  have hafter := List.takeWhile_append_dropWhile (p := fun c => c == p.op.char) (l := p.after)
  obtain ⟨n, hn⟩ := takeWhile_eq_replicate p.op.char p.after
  simp only [Place.apply] at h
  split at h
  · exact .inl h
  · refine .inr ⟨n, _, by rw [← hn, hafter], ?_⟩
    rw [hn] at hafter h
    rw [← hafter, List.drop_left, List.length_replicate] at h
    exact h

/-! ## What a step fails with -/

/-- Failures of a single step: neither of the parentheses nor of the budget. -/
def Failure.isOfStep : Failure → Bool
  | tooDeep | unclosed _ | unopened _ | irreducible _ => false
  | _ => true

variable {e : Failure}

theorem isOfStep_of_arithmetic {x y : Float} (h : arithmetic x op y = .error e) :
    e.isOfStep = true := by
  unfold arithmetic at h
  split at h
  · cases h
    rfl
  · split at h <;> cases h
    rfl

theorem isOfStep_of_combine (h : combine left op right = .error e) : e.isOfStep = true := by
  unfold combine at h
  split at h
  · next x y _ _ =>
    cases hz : arithmetic x op y with
    | ok z => simp [hz, Except.map] at h
    | error f =>
      rw [hz] at h
      cases h
      exact isOfStep_of_arithmetic hz
  · unfold combineTexts at h
    split at h <;> cases h
    rfl

/-- A step fails in its own ways only, never for want of budget or of parentheses. -/
theorem isOfStep_of_applyBinary (h : applyBinary before op after = .error e) :
    e.isOfStep = true := by
  simp only [applyBinary] at h
  generalize operandBefore _ _ = left at h
  generalize operandAfter _ _ = right at h
  split at h
  · cases h
    rfl
  · split at h
    · cases h
      rfl
    · cases hc : combine left.reverse op right with
      | ok result => simp [hc, Except.map] at h
      | error f =>
        rw [hc] at h
        cases h
        exact isOfStep_of_combine hc

theorem isOfStep_of_apply (h : p.apply = .error e) : e.isOfStep = true := by
  simp only [Place.apply] at h
  split at h
  · exact isOfStep_of_applyBinary h
  · simp only [applyRun] at h
    split at h
    · split at h <;> split at h <;> cases h <;> rfl
    · cases h
      rfl

end Lineage.Expression
