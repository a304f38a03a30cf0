import Lineage.Proofs.Expression.Step
import Lineage.Proofs.Number.Written
import Lineage.Proofs.Text.Trim
/-!
# Results of expressions

A result is trimmed, and holds neither a group nor an operator (`isResult_of_evaluate`); so it is
its own result (`evaluate_of_isResult`). `normal_of_evaluate` sums this up.
-/
namespace Lineage.Expression

/-- A text that evaluation leaves as it is. -/
structure IsResult (t : Text) : Prop where
  trim : t.trim = t
  opened : '(' ∉ t
  closed : ')' ∉ t
  /-- The words for truth values are operators that stay. -/
  done : (t = ['+'] ∨ t = ['-']) ∨ firstOperator? [] t = none

variable {t r : Text} {c : Char}

theorem toOption_eq_some_iff {ε α : Type} {x : Except ε α} {a : α} :
    x.toOption = some a ↔ x = .ok a := by
  cases x <;> simp [Except.toOption]

theorem evaluateGroup_of_none {depth : Nat} {whole done rest : Text}
    (h : rest.splitAt? '(' = none) : evaluateGroup depth whole done rest =
      if (done ++ rest).contains ')' then .error (.unopened whole) else reduce (done ++ rest) := by
  rw [evaluateGroup]
  split
  · rfl
  · next heq => simp [h] at heq

theorem reduceWithin_of_none {whole : Text} {budget : Nat} (h : firstOperator? [] t = none) :
    reduceWithin whole budget t = .ok t := by
  unfold reduceWithin
  rw [h]

theorem evaluate_of_isResult (h : IsResult t) : evaluate t = .ok t := by
  have hc : t.contains ')' = false := by simpa using h.closed
  rw [evaluate, evaluateGroup_of_none (Text.splitAt?_eq_none_iff.2 h.opened), List.nil_append, hc,
    if_neg Bool.false_ne_true, reduce, h.trim]
  rcases h.done with hw | hn
  · rw [if_pos hw]
  · split
    · rfl
    · exact reduceWithin_of_none hn

/-! ## Numerals -/

theorem operatorAt?_of_digit {before after : Text} (h : c.isDigit = true ∨ c = '.') :
    operatorAt? before c after = none := by
  have hop : Operator.ofChar? c = none := by
    unfold Operator.ofChar?
    split
    iterate 5 · exact absurd h (by decide)
    · rfl
  rw [operatorAt?, hop, ite_self]

theorem startsNumber_of_digits (h : ∀ c ∈ t, c.isDigit = true ∨ c = '.') (hne : t ≠ [])
    (a : Text) : startsNumber (t ++ a) = true := by
  obtain ⟨c, r, rfl⟩ := List.exists_cons_of_ne_nil hne
  simpa [startsNumber] using h c (by simp)

theorem firstOperator?_of_digits (h : ∀ c ∈ t, c.isDigit = true ∨ c = '.') (before : Text) :
    firstOperator? before t = none := by
  induction t generalizing before with
  | nil => rfl
  | cons c t ih =>
    rw [firstOperator?, operatorAt?_of_digit (h c (by simp))]
    exact ih (fun d hd => h d (by simp [hd])) (c :: before)

/-- The characters of plain numerals. -/
def IsNumeral (c : Char) : Prop := c.isDigit = true ∨ c = '.' ∨ c = '-'

theorem isNumeral_of_isPlain (h : Number.IsPlain t) (hc : c ∈ t) : IsNumeral c := by
  obtain ⟨w, ht, -, hw⟩ := h.exists_digits
  rcases ht with rfl | rfl
  · exact (hw c hc).imp_right .inl
  · rcases List.mem_cons.1 hc with rfl | hc
    · exact .inr (.inr rfl)
    · exact (hw c hc).imp_right .inl

theorem not_isNumeral_paren : ¬ IsNumeral '(' ∧ ¬ IsNumeral ')' := by
  simp only [IsNumeral]
  decide

theorem isBlank_of_isNumeral (h : IsNumeral c) : Text.isBlank c = false := by
  rcases h with h | rfl | rfl
  · have h1 : 48 ≤ c.toNat ∧ c.toNat ≤ 57 := by
      simpa [Char.isDigit, UInt32.le_iff_toNat_le] using h
    rw [Text.isBlank, List.contains_eq_mem, decide_eq_false_iff_not]
    intro hm
    simp only [Text.blankCodes, List.mem_cons, List.not_mem_nil, or_false] at hm
    omega
  · decide
  · decide

theorem trim_of_isPlain (h : Number.IsPlain t) : t.trim = t := by
  refine Text.trim_eq_self_iff.2 ⟨fun c hc => ?_, fun c hc => ?_⟩
  · exact isBlank_of_isNumeral (isNumeral_of_isPlain h (List.mem_of_head? hc))
  · exact isBlank_of_isNumeral (isNumeral_of_isPlain h (List.mem_of_getLast? hc))

theorem isResult_of_isPlain (h : Number.IsPlain t) : IsResult t := by
  refine ⟨trim_of_isPlain h, fun hm => not_isNumeral_paren.1 (isNumeral_of_isPlain h hm),
    fun hm => not_isNumeral_paren.2 (isNumeral_of_isPlain h hm), .inr ?_⟩
  obtain ⟨w, ht, hne, hw⟩ := h.exists_digits
  rcases ht with rfl | rfl
  · exact firstOperator?_of_digits hw []
  · -- the minus is the sign of the numeral
    have hsign : operatorAt? [] '-' w = none := by
      have hstart := startsNumber_of_digits hw hne []
      rw [List.append_nil] at hstart
      simp [operatorAt?, isSign, allowsSign, hstart]
    rw [firstOperator?, hsign]
    exact firstOperator?_of_digits hw _

/-! ## Where characters come from -/

theorem mem_markEnd {op : Operator} {n : Nat} {last : Char} {operand : Text}
    (h : c ∈ markEnd op n last operand) : c = last ∨ c ∈ operand := by
  unfold markEnd at h
  split at h
  · rcases List.mem_append.1 h with h | h
    · exact .inl (List.eq_of_mem_replicate h)
    · exact .inr h
  · exact .inr (List.mem_of_mem_drop h)

theorem mem_applyRun {before after next : Text} {op : Operator} {n : Nat}
    (h : applyRun before op n after = .ok next) (hc : c ∈ next) : c ∈ before ∨ c ∈ after := by
  rcases applyRun_ok h with ⟨d, l, outer, -, rfl, rfl⟩ | ⟨d, l, rest, -, -, rfl, -, rfl⟩
  · simp only [List.mem_append, List.mem_reverse] at hc ⊢
    rcases hc with (hc | hc) | hc
    · exact .inl (.inr hc)
    · rcases mem_markEnd hc with rfl | hc
      · exact .inl (.inl (List.mem_cons_self ..))
      · exact .inl (.inl hc)
    · exact .inr hc
  · simp only [List.mem_append, List.mem_reverse] at hc ⊢
    rcases hc with (hc | hc) | hc
    · exact .inl hc
    · rcases mem_markEnd hc with rfl | hc
      · exact .inr (.inl (List.mem_cons_self ..))
      · exact .inr (.inl hc)
    · exact .inr (.inr hc)

theorem mem_combineTexts {left right result : Text} {op : Operator}
    (h : combineTexts left op right = .ok result) (hc : c ∈ result) : c ∈ left ∨ c ∈ right := by
  unfold combineTexts at h
  split at h
  · cases h
    exact List.mem_append.1 hc
  · cases h
    unfold Text.replaceFirst at hc
    split at hc
    · next before after he =>
      refine .inl ?_
      rw [Text.cutAt?_eq_some he]
      simp only [List.mem_append, List.not_mem_nil, or_false] at hc ⊢
      exact hc.imp_left .inl
    · exact .inl hc
  · cases h

theorem isFinite_of_arithmetic {a b x : Float} {op : Operator} (h : arithmetic a op b = .ok x) :
    x.isFinite = true := by
  unfold arithmetic at h
  split at h
  · cases h
  · split at h
    · cases h
      assumption
    · cases h

theorem mem_combine {left right result : Text} {op : Operator}
    (h : combine left op right = .ok result) (hc : c ∈ result) :
    (c ∈ left ∨ c ∈ right) ∨ IsNumeral c := by
  unfold combine at h
  split at h
  · next a b _ _ =>
    cases hx : arithmetic a op b with
    | error e => simp [hx, Except.map] at h
    | ok x =>
      simp only [hx, Except.map, Except.ok.injEq] at h
      subst h
      exact .inr (isNumeral_of_isPlain (Number.isPlain_format (isFinite_of_arithmetic hx)) hc)
  · exact .inl (mem_combineTexts h hc)

theorem mem_applyBinary {before after next : Text} {op : Operator}
    (h : applyBinary before op after = .ok next) (hc : c ∈ next) :
    (c ∈ before ∨ c ∈ after) ∨ IsNumeral c := by
  obtain ⟨m, n, left, outer, right, rest, result, rfl, rfl, -, -, -, hx, rfl⟩ := applyBinary_ok h
  simp only [List.mem_append, List.mem_reverse] at hc ⊢
  rcases hc with (hc | hc) | hc
  · exact .inl (.inl (.inr hc))
  · refine (mem_combine hx hc).imp_left (Or.imp (fun hc => .inl (.inr ?_)) fun hc => .inl (.inr hc))
    exact List.mem_reverse.1 hc
  · exact .inl (.inr (.inr hc))

theorem mem_apply {p : Place} {next : Text} (h : p.apply = .ok next) (hc : c ∈ next) :
    (c ∈ p.before ∨ c ∈ p.after) ∨ IsNumeral c := by
  rcases apply_ok h with h | ⟨n, rest, hafter, h⟩
  · exact mem_applyBinary h hc
  · rw [hafter]
    exact .inl ((mem_applyRun h hc).imp_right (List.mem_append_right _))

theorem mem_of_firstOperator? {before : Text} {p : Place} (h : firstOperator? before t = some p)
    (hc : c ∈ p.before ∨ c ∈ p.after) : c ∈ before ∨ c ∈ t := by
  obtain ⟨s, hs, rfl, -⟩ := exists_of_firstOperator? h
  rw [hs] at hc
  simp only [List.mem_append, List.mem_reverse, List.mem_cons] at hc ⊢
  rcases hc with (hc | hc) | hc
  · exact .inr (.inl hc)
  · exact .inl hc
  · exact .inr (.inr (.inr hc))

/-! ## Results -/

/-- What is left when no operator is: it is trimmed, and made of the characters of the text and of
numbers. -/
theorem reduceWithin_ok {whole : Text} {budget : Nat} (h : reduceWithin whole budget t = .ok r)
    (ht : t.trim = t) :
    r.trim = r ∧ firstOperator? [] r = none ∧ ∀ c ∈ r, c ∈ t ∨ IsNumeral c := by
  induction budget generalizing t with
  | zero =>
    unfold reduceWithin at h
    split at h
    · next hn =>
      cases h
      exact ⟨ht, hn, fun c hc => .inl hc⟩
    · cases h
    · contradiction
  | succ budget ih =>
    unfold reduceWithin at h
    split at h
    · next hn =>
      cases h
      exact ⟨ht, hn, fun c hc => .inl hc⟩
    · contradiction
    · next p budget' hp hb =>
      split at h
      · next next hnext =>
        cases hb
        obtain ⟨h1, h2, h3⟩ := ih h (Text.trim_trim next)
        refine ⟨h1, h2, fun c hc => ?_⟩
        rcases h3 c hc with hc | hc
        · rcases mem_apply hnext (Text.mem_of_mem_trim hc) with hc | hc
          · exact .inl ((mem_of_firstOperator? hp hc).resolve_left (by simp))
          · exact .inr hc
        · exact .inr hc
      · cases h

theorem isResult_of_reduce (h : reduce t = .ok r) (ho : '(' ∉ t) (hcl : ')' ∉ t) : IsResult r := by
  unfold reduce at h
  have hmem : ∀ {c : Char}, c ∉ t → c ∉ t.trim := fun hc hm => hc (Text.mem_of_mem_trim hm)
  split at h
  · next hw =>
    cases h
    exact ⟨Text.trim_trim t, hmem ho, hmem hcl, .inl hw⟩
  · obtain ⟨h1, h2, h3⟩ := reduceWithin_ok h (Text.trim_trim t)
    exact ⟨h1, fun hc => (h3 _ hc).elim (hmem ho) not_isNumeral_paren.1,
      fun hc => (h3 _ hc).elim (hmem hcl) not_isNumeral_paren.2, .inr h2⟩

/-- The result of the outermost group is evaluated to itself. -/
theorem isResult_of_evaluateGroup {depth : Nat} {whole done rest : Text}
    (h : evaluateGroup depth whole done rest = .ok r) (hd : '(' ∉ done) : IsResult r := by
  fun_induction evaluateGroup depth whole done rest generalizing r with
  | case1 => cases h
  | case2 depth whole done rest hs hc =>
    refine isResult_of_reduce h ?_ (by simpa using hc)
    simp [hd, Text.splitAt?_eq_none_iff.1 hs]
  | case3 => cases h
  | case4 => cases h
  | case5 depth whole done rest before behind hs inner rest' hc hdepth result hi ih1 ih2 =>
    have hb := (Text.splitAt?_eq_some_iff.1 hs).2
    have hr := (ih1 hi (by simp)).opened
    exact ih2 h (by simp [hd, hb, hr])
  | case6 => cases h

/-- What comes out of an evaluation is a result. -/
theorem isResult_of_evaluate (h : evaluate t = .ok r) : IsResult r :=
  isResult_of_evaluateGroup h (by simp)

theorem mem_reduce (h : reduce t = .ok r) (hc : c ∈ r) : c ∈ t ∨ IsNumeral c := by
  unfold reduce at h
  split at h
  · cases h
    exact .inl (Text.mem_of_mem_trim hc)
  · exact ((reduceWithin_ok h (Text.trim_trim t)).2.2 c hc).imp_left Text.mem_of_mem_trim

/-- Evaluating groups brings in characters of numbers only. -/
theorem mem_evaluateGroup {depth : Nat} {whole done rest : Text}
    (h : evaluateGroup depth whole done rest = .ok r) (hc : c ∈ r) :
    (c ∈ done ∨ c ∈ rest) ∨ IsNumeral c := by
  fun_induction evaluateGroup depth whole done rest generalizing r with
  | case1 => cases h
  | case2 depth whole done rest hs _ => simpa using mem_reduce h hc
  | case3 => cases h
  | case4 => cases h
  | case5 depth whole done rest before behind hs inner rest' hcl hdepth result hi ih1 ih2 =>
    obtain ⟨rfl, -⟩ := Text.splitAt?_eq_some_iff.1 hs
    obtain rfl := splitClose?_eq_some hcl
    rcases ih2 h hc with (hc | hc) | hc
    · simp only [List.mem_append] at hc
      rcases hc with (hc | hc) | hc
      · exact .inl (.inl hc)
      · exact .inl (.inr (by simp [hc]))
      · refine (ih1 hi hc).imp_left fun hc => .inr ?_
        simp [hc.resolve_left (by simp)]
    · exact .inl (.inr (by simp [hc]))
    · exact .inr hc
  | case6 => cases h

/-- The characters of a result are those of the expression, or of numerals. -/
theorem mem_evaluate (h : evaluate t = .ok r) (hc : c ∈ r) : c ∈ t ∨ IsNumeral c :=
  (mem_evaluateGroup h hc).imp_left (Or.resolve_left · (by simp))

/-! ## The normal form -/

theorem operatorAt?_of_firstOperator? {b before after : Text} (h : firstOperator? b t = none)
    (ht : t = before ++ c :: after) : operatorAt? (before.reverse ++ b) c after = none := by
  induction before generalizing b t with
  | nil =>
    subst ht
    rw [List.nil_append, firstOperator?] at h
    split at h
    · cases h
    · assumption
  | cons d before ih =>
    subst ht
    rw [List.cons_append, firstOperator?] at h
    split at h
    · cases h
    · simpa using ih h rfl

/-- What looks like an operator and is none is a sign. -/
theorem isSign_of_operatorAt? {before after : Text} (h : operatorAt? before c after = none)
    (hc : isOperatorChar c = true) : isSign before c after = true := by
  unfold operatorAt? at h
  split at h
  · assumption
  · rw [isOperatorChar, h] at hc
    cases hc

/-- A result is trimmed, holds no parenthesis, holds operator characters as signs only (the words
for truth values apart), and is its own result. -/
theorem normal_of_evaluate (h : evaluate t = .ok r) :
    ('(' ∉ r ∧ ')' ∉ r) ∧ r.trim = r ∧
      ((r = ['+'] ∨ r = ['-']) ∨ ∀ before c after, r = before ++ c :: after →
        isOperatorChar c = true → isSign before.reverse c after = true) ∧
      evaluate r = .ok r := by
  have hr := isResult_of_evaluate h
  refine ⟨⟨hr.opened, hr.closed⟩, hr.trim, hr.done.imp_right fun hn before c after he hc => ?_,
    evaluate_of_isResult hr⟩
  have hnone := operatorAt?_of_firstOperator? hn he
  rw [List.append_nil] at hnone
  exact isSign_of_operatorAt? hnone hc

/-- A text with a group, in which a joint turns a sign into the sign of an exponent. -/
def joint : Text := "((x + 1e)+-5) + ab++".toList

/-- What is left of `joint`, with a sign in the middle. -/
def jointResult : Text := "x1e-5abbb".toList

theorem normal_of_evaluate_joint : evaluate joint = .ok jointResult ∧
    ('(' ∉ jointResult ∧ ')' ∉ jointResult) ∧ jointResult.trim = jointResult ∧
    isSign "x1e".toList.reverse '-' "5abbb".toList = true ∧
    evaluate jointResult = .ok jointResult := by
  have h : evaluate joint = .ok jointResult := toOption_eq_some_iff.1 (by decide +kernel)
  obtain ⟨hparens, htrim, hsigns, hself⟩ := normal_of_evaluate h
  refine ⟨h, hparens, htrim, ?_, hself⟩
  rcases hsigns with hword | hsigns
  · exact absurd hword (by decide)
  · exact hsigns "x1e".toList '-' "5abbb".toList rfl rfl

end Lineage.Expression
