import Lineage.Proofs.Expression.Result
/-!
# The weight of a text

An operator character weighs three, and one more where it is an operator and no sign. What stands
around a piece of text decides which of its outermost characters are signs, so that `operators`
counts by place; the lemmas on changed surroundings bound what a cut or a joint can turn into
operators.
-/
namespace Lineage.Expression

/-- The number of operator characters, signs among them. -/
def operatorChars (t : Text) : Nat := t.countP isOperatorChar

/-- What a step takes from. -/
def weight (t : Text) : Nat := 3 * operatorChars t + operators [] t []

variable {b b' s t a a' : Text} {c : Char}

@[simp] theorem operatorChars_nil : operatorChars [] = 0 := rfl

@[simp] theorem operatorChars_append (s t : Text) :
    operatorChars (s ++ t) = operatorChars s + operatorChars t :=
  List.countP_append

@[simp] theorem operatorChars_cons (c : Char) (t : Text) :
    operatorChars (c :: t) = operatorChars t + (isOperatorChar c).toNat := by
  rw [operatorChars, List.countP_cons]
  cases isOperatorChar c <;> rfl

@[simp] theorem operatorChars_reverse (t : Text) : operatorChars t.reverse = operatorChars t :=
  List.countP_reverse

/-! ## One place -/

theorem isOperatorChar_of_isDigit (h : c.isDigit = true ∨ c = '.') : isOperatorChar c = false := by
  have hn : operatorAt? [] c [] = none := operatorAt?_of_digit h
  have hs : isSign [] c [] = false := by simp [isSign, startsNumber]
  have := isSome_operatorAt? [] c []
  rw [hn, hs] at this
  simpa using this.symm

/-- A sign stands before a digit or a point. -/
theorem isOperatorChar_of_isSign {d : Char} (h : isSign b c (d :: a) = true) :
    isOperatorChar d = false := by
  simp only [isSign, startsNumber, Bool.and_eq_true, Bool.or_eq_true, beq_iff_eq] at h
  exact isOperatorChar_of_isDigit h.1.2

theorem toNat_operatorAt?_le (b : Text) (c : Char) (a : Text) :
    (operatorAt? b c a).isSome.toNat ≤ 1 := Bool.toNat_le _

/-! ## Other surroundings -/

theorem startsNumber_append (c : Char) (t a : Text) :
    startsNumber (c :: t ++ a) = startsNumber (c :: t) := rfl

theorem operators_congr_after (h : startsNumber a = startsNumber a') :
    operators b s a = operators b s a' := by
  induction s generalizing b with
  | nil => rfl
  | cons c s ih =>
    have hs : startsNumber (s ++ a) = startsNumber (s ++ a') := by
      cases s with
      | nil => exact h
      | cons d s => rfl
    simp only [operators, ih, isSome_operatorAt?, isSign, hs]

/-- Only the last character of a text is judged by what follows. -/
theorem operators_le_after (b s a a' : Text) : operators b s a' ≤ operators b s a + 1 := by
  induction s generalizing b with
  | nil => exact Nat.zero_le _
  | cons c s ih =>
    cases s with
    | nil =>
      have := toNat_operatorAt?_le b c ([] ++ a')
      simp only [operators]
      omega
    | cons d s =>
      have hc : (operatorAt? b c (d :: s ++ a')).isSome =
          (operatorAt? b c (d :: s ++ a)).isSome := by
        simp only [isSome_operatorAt?, isSign, startsNumber_append]
      have := ih (c :: b)
      rw [operators_cons b, operators_cons b, hc]
      omega

/-- Whether a sign may stand behind the next character is judged by this much of what precedes. -/
theorem allowsSign_cons_congr (h : b.head?.any Char.isDigit = b'.head?.any Char.isDigit)
    (c : Char) : allowsSign (c :: b) = allowsSign (c :: b') := by
  simp only [allowsSign, h]

theorem operators_congr_before (h : allowsSign b = allowsSign b')
    (hd : b.head?.any Char.isDigit = b'.head?.any Char.isDigit) :
    operators b s a = operators b' s a := by
  induction s generalizing b b' with
  | nil => rfl
  | cons c s ih =>
    rw [operators_cons b, operators_cons b', ih (allowsSign_cons_congr hd c) rfl]
    simp only [isSome_operatorAt?, isSign, h]

/-- Where a sign may stand, there are no more operators. -/
theorem operators_le_of_allowsSign (h : allowsSign b' = true)
    (hd : b.head?.any Char.isDigit = b'.head?.any Char.isDigit) :
    operators b' s a ≤ operators b s a := by
  cases s with
  | nil => exact Nat.le_refl _
  | cons c s =>
    have htail : operators (c :: b') s a = operators (c :: b) s a :=
      operators_congr_before (allowsSign_cons_congr hd c).symm rfl
    rw [operators_cons b', operators_cons b, htail]
    simp only [isSome_operatorAt?, isSign, h]
    cases allowsSign b <;> cases startsNumber (s ++ a) <;> cases c == '+' || c == '-' <;>
      cases isOperatorChar c <;> simp

/-- Of the first two characters, which alone are judged by what precedes, one is no operator
character if the other is a sign. -/
theorem operators_le_before (b b' s a : Text) : operators b' s a ≤ operators b s a + 1 := by
  match s with
  | [] => exact Nat.zero_le _
  | [c] =>
    have := toNat_operatorAt?_le b' c ([] ++ a)
    simp only [operators]
    omega
  | c :: d :: s =>
    have htail : operators (d :: c :: b') s a = operators (d :: c :: b) s a :=
      operators_congr_before (allowsSign_cons_congr rfl d) rfl
    have hd := toNat_operatorAt?_le (c :: b') d (s ++ a)
    have hc := toNat_operatorAt?_le b' c (d :: s ++ a)
    rw [operators_cons b', operators_cons b, operators_cons, operators_cons, htail]
    cases hsign : isSign b c (d :: s ++ a) with
    | false =>
      have hle : (operatorAt? b' c (d :: s ++ a)).isSome.toNat ≤
          (operatorAt? b c (d :: s ++ a)).isSome.toNat := by
        rw [isSome_operatorAt?, isSome_operatorAt?, hsign]
        cases isSign b' c (d :: s ++ a) <;> cases isOperatorChar c <;> simp
      omega
    | true =>
      have hz : (operatorAt? (c :: b') d (s ++ a)).isSome.toNat = 0 := by
        rw [isSome_operatorAt?, isOperatorChar_of_isSign hsign, Bool.and_false]
        rfl
      omega

/-- A text that begins with a boundary has its operators wherever it stands. -/
theorem operators_le_of_boundary (h : ∀ c r, s = c :: r → isBoundary b c (r ++ a) = true) :
    operators b' s a ≤ operators b s a := by
  cases s with
  | nil => exact Nat.le_refl _
  | cons c s =>
    have hb := h c s rfl
    rw [isBoundary, Bool.or_eq_true, beq_iff_eq, isSome_operatorAt?, Bool.and_eq_true] at hb
    have hallows : ∀ b, allowsSign (c :: b) = true := by
      intro b
      rcases hb with rfl | hb
      · rfl
      · simp [allowsSign, hb.2]
    have htail : operators (c :: b') s a = operators (c :: b) s a :=
      operators_congr_before ((hallows b').trans (hallows b).symm) rfl
    rw [operators_cons b', operators_cons b, htail]
    refine Nat.add_le_add_right ?_ _
    simp only [isSome_operatorAt?]
    rcases hb with rfl | hb
    · have : isOperatorChar ' ' = false := by decide
      simp [this]
    · rw [Bool.not_eq_true'] at hb
      simp only [hb.1, hb.2, Bool.not_false, Bool.and_true]
      exact Bool.toNat_le _

/-! ## Texts without operators -/

theorem operators_of_digits (h : ∀ c ∈ t, c.isDigit = true ∨ c = '.') (b a : Text) :
    operators b t a = 0 := by
  induction t generalizing b with
  | nil => rfl
  | cons c t ih =>
    rw [operators_cons, operatorAt?_of_digit (h c (by simp)),
      ih (fun d hd => h d (by simp [hd])) (c :: b)]
    rfl

theorem operatorChars_of_digits (h : ∀ c ∈ t, c.isDigit = true ∨ c = '.') :
    operatorChars t = 0 :=
  List.countP_eq_zero.2 fun c hc => by simp [isOperatorChar_of_isDigit (h c hc)]

theorem operators_eq_zero (h : ∀ c ∈ t, isOperatorChar c = false) (b a : Text) :
    operators b t a = 0 := by
  induction t generalizing b with
  | nil => rfl
  | cons c t ih =>
    rw [operators_cons, ih (fun d hd => h d (by simp [hd])), isSome_operatorAt?, h c (by simp),
      Bool.and_false]
    rfl

theorem operators_replicate (h : isOperatorChar c = false) (n : Nat) (b a : Text) :
    operators b (List.replicate n c) a = 0 :=
  operators_eq_zero (fun _ hd => (List.eq_of_mem_replicate hd).symm ▸ h) b a

theorem operatorChars_replicate (c : Char) (n : Nat) :
    operatorChars (List.replicate n c) = n * (isOperatorChar c).toNat := by
  induction n with
  | zero => simp
  | succ n ih => rw [List.replicate_succ, operatorChars_cons, ih, Nat.succ_mul]

/-- A numeral has at most a sign, where a sign may stand. -/
theorem operators_of_isPlain (ht : Number.IsPlain t) (hb : allowsSign b = true) (a : Text) :
    operators b t a = 0 ∧ operatorChars t ≤ 1 := by
  obtain ⟨w, ht, hne, hw⟩ := ht.exists_digits
  rcases ht with rfl | rfl
  · exact ⟨operators_of_digits hw b a, by rw [operatorChars_of_digits hw]; exact Nat.zero_le 1⟩
  · have hsign : isSign b '-' (w ++ a) = true := by
      simp [isSign, hb, startsNumber_of_digits hw hne a]
    rw [operators_cons, isSome_operatorAt?, hsign, operators_of_digits hw, operatorChars_cons,
      operatorChars_of_digits hw]
    exact ⟨rfl, Nat.le_of_eq rfl⟩

/-- What stands before a space is not judged by what follows the space. -/
theorem operators_before_space (h : b = [] ∨ ∃ r, b = ' ' :: r) (a a' : Text) :
    operators [] b.reverse a = operators [] b.reverse a' := by
  rcases h with rfl | ⟨r, rfl⟩
  · rfl
  · have hspace : ∀ a, (operatorAt? r.reverse.reverse ' ' a).isSome = false := by
      intro a
      rw [isSome_operatorAt?, show isOperatorChar ' ' = false by decide, Bool.and_false]
    have hr : operators [] r.reverse ([' '] ++ a) = operators [] r.reverse ([' '] ++ a') :=
      operators_congr_after rfl
    rw [List.reverse_cons, operators_append, operators_append, hr]
    simp only [operators, List.append_nil, hspace]

end Lineage.Expression
