import Lineage.Proofs.Expression.Splice
import Lineage.Proofs.Expression.Weight
/-!
# The budget of a reduction

Every step of a reduction makes the text lighter (`weight_lt_of_apply`), and a text weighs at most
four for each character, so that the loop over operators ends by itself before its budget is used
up.
-/
namespace Lineage.Expression

variable {t w a b b' before after next suffix left right result : Text} {op : Operator} {p : Place}
  {n : Nat} {c : Char} {e : Failure} {r : Except Failure Text}

/-- The weight of a text, told from its leftmost operator. -/
theorem Leftmost.weight (h : Leftmost t p) : Expression.weight t =
    3 * (operatorChars p.before + 1 + operatorChars p.after) + 1 +
      operators (p.op.char :: p.before) p.after [] := by
  have hclear : operators [] p.before.reverse (p.op.char :: p.after ++ []) = 0 := by
    rw [List.append_nil, h.clear]
  have hhere : (operatorAt? p.before p.op.char (p.after ++ [])).isSome = true := by
    rw [List.append_nil, h.here]
    rfl
  rw [Expression.weight, h.text, operators_append, hclear, List.reverse_reverse, List.append_nil,
    operators_cons, hhere]
  simp only [operatorChars_append, operatorChars_reverse, operatorChars_cons, isOperatorChar_char,
    Bool.toNat_true]
  omega

/-- Where no operator stands, the boundary of an operand is a space. -/
theorem space_of_boundary {left rest : Text} (hclear : operators [] (left ++ rest).reverse a = 0)
    (h : ∀ c r, rest = c :: r → isBoundary r c (left.reverse ++ a) = true) :
    rest = [] ∨ ∃ r, rest = ' ' :: r := by
  cases rest with
  | nil => exact .inl rfl
  | cons c r =>
    have hb := h c r rfl
    rw [isBoundary, Bool.or_eq_true, beq_iff_eq] at hb
    rcases hb with rfl | hb
    · exact .inr ⟨r, rfl⟩
    · rw [List.reverse_append, List.reverse_cons, List.append_assoc, operators_append,
        List.reverse_reverse, List.append_nil, List.singleton_append, operators_cons, hb] at hclear
      simp at hclear

theorem allowsSign_of_space (h : b = [] ∨ ∃ r, b = ' ' :: r) : allowsSign b = true := by
  rcases h with rfl | ⟨r, rfl⟩ <;> rfl

/-! ## One operator -/

/-- A joint or a cut lets at most three signs become operators. -/
theorem weight_combineTexts (h : combineTexts left op right = .ok result)
    (hl : operators b left a = 0) (hr : operators b' right suffix = 0) :
    3 * operatorChars result + operators b result suffix ≤
      3 * (operatorChars left + operatorChars right) + 3 := by
  unfold combineTexts at h
  split at h
  · cases h
    have h1 := operators_le_after b left a (right ++ suffix)
    have h2 := operators_le_before b' (left.reverse ++ b) right suffix
    rw [operators_append, operatorChars_append]
    omega
  · cases h
    unfold Text.replaceFirst
    split
    · next l1 l2 he =>
      rw [Text.cutAt?_eq_some he, operators_append, operators_append] at hl
      have h1 := operators_le_after b l1 (right ++ (l2 ++ a)) (l2 ++ suffix)
      have h2 := operators_le_before ((l1 ++ right).reverse ++ b) (l1.reverse ++ b) l2 suffix
      have h3 := operators_le_after ((l1 ++ right).reverse ++ b) l2 a suffix
      rw [Text.cutAt?_eq_some he, List.append_nil, operators_append]
      simp only [operatorChars_append]
      omega
    · have := operators_le_after b left a suffix
      omega
  · cases h

/-- A result weighs no more than its operands with the operator between them. -/
theorem weight_combine (h : combine left op right = .ok result) (hb : allowsSign b = true)
    (hl : operators b left a = 0) (hr : operators b' right suffix = 0) :
    3 * operatorChars result + operators b result suffix ≤
      3 * (operatorChars left + operatorChars right) + 3 := by
  unfold combine at h
  split at h
  · next x y _ _ =>
    cases hz : arithmetic x op y with
    | error e => simp [hz, Except.map] at h
    | ok z =>
      simp only [hz, Except.map, Except.ok.injEq] at h
      subst h
      have := operators_of_isPlain (Number.isPlain_format (isFinite_of_arithmetic hz)) hb suffix
      omega
  · exact weight_combineTexts h hl hr

/-- Applying the leftmost operator makes the text lighter: the result has fewer places for one. -/
theorem weight_lt_of_applyBinary (hp : Leftmost t ⟨before, op, after⟩)
    (h : applyBinary before op after = .ok next) : weight next < weight t := by
  have hweight := hp.weight
  have hclear := hp.clear
  obtain ⟨m, n, left, outer, right, rest, result, hbefore, hafter, hl, hright, hr, hc, rfl⟩ :=
    applyBinary_ok h
  dsimp only at hweight hclear
  rw [hbefore] at hclear
  have houter := space_of_boundary hclear hl
  rw [List.reverse_append, List.reverse_append, operators_append, operators_append,
    List.reverse_reverse, List.append_nil] at hclear
  have hkept : operators [] outer.reverse (result ++ rest) = 0 := by
    rw [operators_before_space houter (result ++ rest)]
    exact (Nat.add_eq_zero_iff.1 hclear).1
  have hleft := (Nat.add_eq_zero_iff.1 (Nat.add_eq_zero_iff.1 hclear).2).1
  have hresult := weight_combine hc (allowsSign_of_space houter) hleft hright
  -- the rest begins with a boundary, so that nothing in it becomes an operator
  have hrest : operators (result.reverse ++ outer) rest [] ≤
      operators ((List.replicate n ' ' ++ right).reverse ++ op.char :: before) rest [] :=
    operators_le_of_boundary (by simpa using hr)
  have hafter' : operators ((List.replicate n ' ' ++ right).reverse ++ op.char :: before) rest [] ≤
      operators (op.char :: before) after [] := by
    rw [hafter, operators_append]
    exact Nat.le_add_left ..
  have hnext : operators [] (outer.reverse ++ result ++ rest) [] =
      operators outer result rest + operators (result.reverse ++ outer) rest [] := by
    rw [List.append_assoc, operators_append, operators_append, List.append_nil, hkept]
    simp
  rw [weight, hnext]
  have hchars := congrArg operatorChars hbefore
  have hchars' := congrArg operatorChars hafter
  simp only [operatorChars_append, operatorChars_reverse] at hchars hchars' hresult ⊢
  omega

/-! ## Runs of operators -/

theorem operators_clear_after (h : operators b t a = 0) (a' : Text) : operators b t a' ≤ 1 := by
  have := operators_le_after b t a a'
  omega

/-- The character before a run of operators is none. -/
theorem isOperatorChar_of_operandBefore {l : Text} (h : operandBefore b (op.char :: a) = c :: l) :
    isOperatorChar c = false := by
  cases b with
  | nil => cases h
  | cons d b =>
    rw [operandBefore] at h
    split at h
    · cases h
    · next hb =>
      obtain ⟨rfl, -⟩ := List.cons.inj h
      simp only [isBoundary, isSome_operatorAt?, isSign, startsNumber_char, Bool.and_false,
        Bool.false_and, Bool.not_false, Bool.true_and, Bool.or_eq_true, not_or,
        Bool.not_eq_true] at hb
      exact hb.2

theorem isOperatorChar_of_operandAfter {l : Text} (h : operandAfter b a = c :: l)
    (hp : isPostfix a = false) : isOperatorChar c = false := by
  cases a with
  | nil => cases h
  | cons d a =>
    rw [operandAfter] at h
    split at h
    · cases h
    · obtain ⟨rfl, -⟩ := List.cons.inj h
      exact (Bool.or_eq_false_iff.1 hp).2

theorem operatorChars_markEnd (hc : isOperatorChar c = false) (op : Operator) (n : Nat) (t : Text) :
    operatorChars (markEnd op n c t) ≤ operatorChars t := by
  unfold markEnd
  split
  · rw [operatorChars_append, operatorChars_replicate, hc]
    simp
  · exact (List.drop_sublist n t).countP_le

/-- Marking the end of an operand, which is given backwards, leaves at most one operator. -/
theorem operators_markEnd_reverse (hc : isOperatorChar c = false) (h : operators b t.reverse a = 0)
    (op : Operator) (n : Nat) (a' : Text) : operators b (markEnd op n c t).reverse a' ≤ 1 := by
  unfold markEnd
  split
  · rw [List.reverse_append, List.reverse_replicate, operators_append, operators_replicate hc]
    exact operators_clear_after h _
  · rw [← List.take_append_drop n t, List.reverse_append, operators_append] at h
    exact operators_clear_after (Nat.add_eq_zero_iff.1 h).1 a'

/-- Marking the start of an operand leaves at most one operator. -/
theorem operators_markEnd (hc : isOperatorChar c = false) (h : operators b t a = 0)
    (op : Operator) (n : Nat) (b' : Text) : operators b' (markEnd op n c t) a ≤ 1 := by
  unfold markEnd
  split
  · have := operators_le_before b ((List.replicate n c).reverse ++ b') t a
    rw [operators_append, operators_replicate hc]
    omega
  · rw [← List.take_append_drop n t, operators_append] at h
    have := operators_le_before ((t.take n).reverse ++ b) b' (t.drop n) a
    omega

/-- A run of operators takes three for each of them, and lets at most three signs become
operators. -/
theorem weight_lt_of_applyRun (hp : Leftmost t ⟨before, op, List.replicate n op.char ++ after⟩)
    (h : applyRun before op (n + 1) after = .ok next) : weight next < weight t := by
  have hweight := hp.weight
  have hclear := hp.clear
  dsimp only at hweight hclear
  rw [operators_append, operatorChars_append, operatorChars_replicate, isOperatorChar_char,
    Bool.toNat_true, Nat.mul_one, List.append_nil] at hweight
  rcases applyRun_ok h with
    ⟨c, l, outer, hop, hbefore, rfl⟩ | ⟨c, l, rest, hpost, hop, hafter, hl, rfl⟩
  · have hc : isOperatorChar c = false := isOperatorChar_of_operandBefore hop
    rw [hbefore, List.reverse_append, operators_append, List.reverse_reverse, List.append_nil,
      Nat.add_eq_zero_iff] at hclear
    have houter := operators_clear_after hclear.1 ((markEnd op (n + 1) c (c :: l)).reverse ++ after)
    have hmark := operators_markEnd_reverse hc hclear.2 op (n + 1) after
    have hchars := operatorChars_markEnd hc op (n + 1) (c :: l)
    have hrest := operators_le_before ((List.replicate n op.char).reverse ++ op.char :: before)
      (markEnd op (n + 1) c (c :: l) ++ outer) after []
    rw [weight, List.append_assoc, operators_append, operators_append, List.append_nil]
    have hbefore := congrArg operatorChars hbefore
    simp only [operatorChars_append, operatorChars_reverse, List.reverse_reverse,
      List.append_nil] at hbefore ⊢
    omega
  · have hc : isOperatorChar c = false := isOperatorChar_of_operandAfter hop hpost
    have hbefore := operators_clear_after hclear (markEnd op (n + 1) c (c :: l) ++ rest)
    have hmark := operators_markEnd hc hl op (n + 1) before
    have hchars := operatorChars_markEnd hc op (n + 1) (c :: l)
    have hrest : operators ((markEnd op (n + 1) c (c :: l)).reverse ++ before) rest [] ≤
        operators ((List.replicate n op.char).reverse ++ op.char :: before) after [] + 1 := by
      rw [hafter, operators_append]
      have := operators_le_before
        ((c :: l).reverse ++ ((List.replicate n op.char).reverse ++ op.char :: before))
        ((markEnd op (n + 1) c (c :: l)).reverse ++ before) rest []
      omega
    rw [weight, List.append_assoc, operators_append, operators_append, List.append_nil]
    have hafter := congrArg operatorChars hafter
    simp only [operatorChars_append, operatorChars_reverse, List.reverse_reverse,
      List.append_nil] at hafter ⊢
    omega

theorem weight_lt_of_apply (hp : Leftmost t p) (h : p.apply = .ok next) :
    weight next < weight t := by
  obtain ⟨before, op, after⟩ := p
  rcases apply_ok h with h | ⟨n, rest, hafter, h⟩
  · exact weight_lt_of_applyBinary hp h
  · dsimp only at hafter h
    rw [hafter] at hp
    exact weight_lt_of_applyRun hp h

/-! ## A whole reduction -/

/-- Trimming can only turn operators into signs. -/
theorem weight_trim_le (t : Text) : weight t.trim ≤ weight t := by
  obtain ⟨a, b, ha, hb, ht⟩ := Text.exists_trim t
  have hdigit : ∀ c, Text.isBlank c = true → c.isDigit = false := by
    intro c hc
    cases hd : c.isDigit with
    | false => rfl
    | true => rw [isBlank_of_isNumeral (.inl hd)] at hc; cases hc
  have hafter : operators a.reverse t.trim [] = operators a.reverse t.trim b := by
    refine operators_congr_after ?_
    cases b with
    | nil => rfl
    | cons c b =>
      have hc := hb c (by simp)
      have hpoint : c ≠ '.' := by
        rintro rfl
        cases hc
      simp [startsNumber, hdigit c hc, hpoint]
  have hbefore : operators [] t.trim [] ≤ operators a.reverse t.trim [] := by
    refine operators_le_of_allowsSign rfl ?_
    cases hr : a.reverse with
    | nil => rfl
    | cons c r =>
      have hc : c ∈ a := by
        rw [← List.mem_reverse, hr]
        exact List.mem_cons_self ..
      simp [hdigit c (ha c hc)]
  have hweight := congrArg weight ht
  simp only [weight, List.append_assoc, operators_append, operatorChars_append, List.append_nil]
    at hweight ⊢
  omega

/-- A text weighs at most four for each character. -/
theorem weight_le (t : Text) : weight t ≤ 4 * t.length := by
  have hop : ∀ b t a, operators b t a ≤ t.length := by
    intro b t a
    induction t generalizing b with
    | nil => exact Nat.le_refl 0
    | cons c t ih =>
      have := toNat_operatorAt?_le b c (t ++ a)
      have := ih (c :: b)
      rw [operators_cons, List.length_cons]
      omega
  have := hop [] t []
  have : operatorChars t ≤ t.length := List.countP_le_length
  rw [weight]
  omega

theorem length_le_utf8Size (t : Text) : t.length ≤ t.utf8Size := by
  induction t with
  | nil => exact Nat.le_refl 0
  | cons c t ih =>
    have := c.utf8Size_pos
    rw [List.length_cons, Text.utf8Size_cons]
    omega

/-- The loop over operators without a budget: from `t` it ends with `r` after `n` steps, the last of
which may be one that fails. -/
inductive Runs : Text → Nat → Except Failure Text → Prop
  | done {t : Text} : firstOperator? [] t = none → Runs t 0 (.ok t)
  | failed {t : Text} {p : Place} {e : Failure} :
      firstOperator? [] t = some p → p.apply = .error e → Runs t 1 (.error e)
  | step {t next : Text} {p : Place} {n : Nat} {r : Except Failure Text} :
      firstOperator? [] t = some p → p.apply = .ok next → Runs next.trim n r → Runs t (n + 1) r

/-- The loop ends by itself, after no more steps than the text weighs. -/
theorem exists_runs (t : Text) : ∃ n r, Runs t n r ∧ n ≤ weight t := by
  induction hw : weight t using Nat.strongRecOn generalizing t with
  | _ w ih =>
    subst hw
    cases hp : firstOperator? [] t with
    | none => exact ⟨0, _, .done hp, Nat.zero_le _⟩
    | some p =>
      have hleft := leftmost_of_firstOperator? hp
      cases hnext : p.apply with
      | error e =>
        have := hleft.weight
        exact ⟨1, _, .failed hp hnext, by omega⟩
      | ok next =>
        have hlt := Nat.lt_of_le_of_lt (weight_trim_le next) (weight_lt_of_apply hleft hnext)
        obtain ⟨n, r, hr, hn⟩ := ih _ hlt next.trim rfl
        exact ⟨n + 1, r, .step hp hnext hr, by omega⟩

/-- A run that is no longer than the budget is what is computed. -/
theorem reduceWithin_of_runs (h : Runs t n r) {budget : Nat} (hn : n ≤ budget) (whole : Text) :
    reduceWithin whole budget t = r := by
  induction h generalizing budget with
  | done hp => exact reduceWithin_of_none hp
  | failed hp he =>
    obtain ⟨k, rfl⟩ : ∃ k, budget = k + 1 := ⟨budget - 1, by omega⟩
    unfold reduceWithin
    simp only [hp, he]
  | step hp hnext _ ih =>
    obtain ⟨k, rfl⟩ : ∃ k, budget = k + 1 := ⟨budget - 1, by omega⟩
    unfold reduceWithin
    simp only [hp, hnext]
    exact ih (by omega)

theorem Runs.unique {m : Nat} {r' : Except Failure Text} (h : Runs t n r) (h' : Runs t m r') :
    r = r' :=
  (reduceWithin_of_runs h (Nat.le_max_left n m) t).symm.trans
    (reduceWithin_of_runs h' (Nat.le_max_right n m) t)

theorem Runs.isOfStep (h : Runs t n (.error e)) : e.isOfStep = true := by
  generalize hr : Except.error e = r at h
  induction h with
  | done => cases hr
  | failed _ he =>
    cases hr
    exact isOfStep_of_apply he
  | step _ _ _ ih => exact ih hr

/-! ## The budget -/

/-- What the loop ends with is the result, but for the words for truth values. -/
theorem exists_reduce (t : Text) : ∃ n r, Runs t.trim n r ∧ n < t.trim.utf8Size * 4 + 16 ∧
    reduce t = if t.trim = ['+'] ∨ t.trim = ['-'] then .ok t.trim else r := by
  obtain ⟨n, r, hr, hn⟩ := exists_runs t.trim
  have hw := weight_le t.trim
  have hs := length_le_utf8Size t.trim
  have hbudget : n < t.trim.utf8Size * 4 + 16 := by omega
  refine ⟨n, r, hr, hbudget, ?_⟩
  rw [reduce, reduceWithin_of_runs hr (Nat.le_of_lt hbudget)]

theorem isOfStep_of_reduce (h : reduce t = .error e) : e.isOfStep = true := by
  obtain ⟨n, r, hr, -, he⟩ := exists_reduce t
  rw [he] at h
  split at h
  · cases h
  · subst h
    exact hr.isOfStep

theorem evaluateGroup_ne_irreducible (depth : Nat) (whole done rest : Text) :
    evaluateGroup depth whole done rest ≠ .error (.irreducible w) := by
  fun_induction evaluateGroup depth whole done rest with
  | case1 | case3 | case4 => rintro ⟨⟩
  | case2 =>
    intro h
    cases isOfStep_of_reduce h
  | case5 _ _ _ _ _ _ _ _ _ _ _ _ _ _ ih => exact ih
  | case6 _ _ _ _ _ _ _ _ _ _ _ e he ih =>
    rintro ⟨⟩
    exact ih he

/-- Evaluation ends without any budget. The loop over operators takes fewer steps than it may, so
that running out of steps is no failure of an evaluation. Each turn of the loop over groups leaves
fewer `(` and the same result, and where no turn is possible there is no `(` or a failure. -/
theorem evaluation_ends :
    (∀ t : Text, ∃ n r, Runs t.trim n r ∧ n < t.trim.utf8Size * 4 + 16 ∧
      reduce t = if t.trim = ['+'] ∨ t.trim = ['-'] then .ok t.trim else r) ∧
    (∀ t w : Text, evaluate t ≠ .error (.irreducible w)) ∧
    ∀ depth, WellFounded (fun u t => Splices depth t u) ∧
      (∀ t u, Splices depth t u → u.count '(' < t.count '(' ∧
        ∀ whole, evaluateGroup depth whole [] t = evaluateGroup depth whole [] u) ∧
      ∀ t, (∀ u, ¬ Splices depth t u) →
        '(' ∉ t ∨ ∃ e, ∀ whole, evaluateGroup depth whole [] t = .error e :=
  ⟨exists_reduce, fun t _ => evaluateGroup_ne_irreducible 0 t [] t, fun depth =>
    ⟨wellFounded_splices depth,
      fun _ _ h => ⟨count_of_splices h, evaluateGroup_of_splices h⟩,
      fun _ => evaluateGroup_of_not_splices⟩⟩

/-- `joint` after a turn. -/
def jointSpliced : Text := "x1e-5 + ab++".toList

/-- One turn leaves no group in `joint`, and then none is possible. -/
theorem evaluation_ends_joint : Splices 0 joint jointSpliced ∧
    jointSpliced.count '(' < joint.count '(' ∧
    evaluate joint = evaluateGroup 0 joint [] jointSpliced ∧
    ∃ n r, Runs jointSpliced n r ∧ n < 64 ∧ reduce jointSpliced = r := by
  have hinner : evaluateGroup 1 "(x + 1e)+-5".toList [] "(x + 1e)+-5".toList =
      .ok "x1e-5".toList := toOption_eq_some_iff.1 (by decide +kernel)
  have hsplice : Splices 0 joint jointSpliced :=
    @Splices.splice 0 [] _ "(x + 1e)+-5".toList " + ab++".toList _ (by decide)
      (by decide +kernel) (by decide) hinner
  obtain ⟨hends, -, hturns⟩ := evaluation_ends
  obtain ⟨hcount, hsame⟩ := (hturns 0).2.1 joint jointSpliced hsplice
  obtain ⟨n, r, hr, hn, heq⟩ := hends jointSpliced
  have htrim : jointSpliced.trim = jointSpliced := by decide +kernel
  have hsize : jointSpliced.utf8Size = 12 := by decide +kernel
  rw [htrim] at hr hn heq
  rw [if_neg (by decide +kernel)] at heq
  exact ⟨hsplice, hcount, hsame joint, n, r, hr, by omega, heq⟩

end Lineage.Expression
