import Lineage.Proofs.Expression.Chain
/-!
# Marked words

A run of `+` or `-` before or behind a word repeats or drops characters at that end of it, one for
each of the run (`evaluate_marked`). The word may begin with a digit or a point, since the run is
found at its first character, behind which no number starts.
-/
namespace Lineage.Expression

/-- The characters of words: not blank, no operators and no parentheses. -/
def WordChar (c : Char) : Prop :=
  Text.isBlank c = false ∧ isOperatorChar c = false ∧ c ≠ '(' ∧ c ≠ ')'

instance (c : Char) : Decidable (WordChar c) := inferInstanceAs (Decidable (_ ∧ _))

variable {w s a b r : Text} {c : Char} {op : Operator} {k n : Nat}

/-! ## Words -/

theorem operators_of_word (hw : ∀ c ∈ w, WordChar c) (b a : Text) : operators b w a = 0 :=
  operators_eq_zero (fun c hc => (hw c hc).2.1) b a

theorem ne_space_of_word (hw : ∀ c ∈ w, WordChar c) : ∀ c ∈ w, c ≠ ' ' := by
  rintro c hc rfl
  exact absurd (hw _ hc).1 (by decide)

theorem trim_of_word (hw : ∀ c ∈ w, WordChar c) : w.trim = w :=
  Text.trim_eq_self_iff.2 ⟨fun c hc => (hw c (List.mem_of_head? hc)).1,
    fun c hc => (hw c (List.mem_of_getLast? hc)).1⟩

theorem wordChar_of_markEnd (hw : ∀ c ∈ w, WordChar c) (hc : c ∈ w) :
    ∀ d ∈ markEnd op n c w, WordChar d := by
  intro d hd
  rcases mem_markEnd hd with rfl | hd
  · exact hw d hc
  · exact hw d hd

/-! ## A run next to a word -/

/-- The first operator of a run is one, since another one follows it. -/
theorem firstOperator?_run (hs : ∀ c ∈ s, WordChar c) :
    firstOperator? [] (s ++ (List.replicate (k + 2) op.char ++ a)) =
      some ⟨s.reverse, op, List.replicate (k + 1) op.char ++ a⟩ := by
  have hnumber : startsNumber (List.replicate (k + 1) op.char ++ a) = false :=
    startsNumber_char op _
  have hop : operatorAt? (s.reverse ++ []) op.char (List.replicate (k + 1) op.char ++ a) =
      some op := by
    rw [operatorAt?, isSign, hnumber, Bool.and_false, Bool.false_and, Operator.ofChar?_char]
    rfl
  have hfirst := firstOperator?_of_clear (operators_of_word hs _ _) hop
  rwa [List.append_nil] at hfirst

/-- A run is applied as a whole. -/
theorem apply_run (ha : a.head? ≠ some op.char) :
    Place.apply ⟨b, op, List.replicate (k + 1) op.char ++ a⟩ = applyRun b op (k + 2) a := by
  have hrest : a.takeWhile (· == op.char) = [] := by
    cases a with
    | nil => rfl
    | cons c a => exact List.takeWhile_cons_of_neg (by simpa using ha)
  have hrun : (List.replicate (k + 1) op.char ++ a).takeWhile (· == op.char) =
      List.replicate (k + 1) op.char := by
    rw [List.takeWhile_append_of_pos (by simp), hrest, List.append_nil]
  have hne : (List.replicate (k + 1) op.char).isEmpty = false := rfl
  simp only [Place.apply, hrun, hne, Bool.false_eq_true, if_false, List.length_replicate]
  rw [List.drop_left' (List.length_replicate ..)]

/-- Where a word is left, the run was all there was to do. -/
theorem evaluate_run (hs : ∀ c ∈ s, WordChar c) (ha : ∀ c ∈ a, WordChar c)
    (h : applyRun s.reverse op (k + 2) a = .ok r) (hr : ∀ c ∈ r, WordChar c) :
    evaluate (s ++ (List.replicate (k + 2) op.char ++ a)) = .ok r := by
  have hchars : ∀ c ∈ s ++ (List.replicate (k + 2) op.char ++ a),
      Text.isBlank c = false ∧ c ≠ '(' ∧ c ≠ ')' := by
    intro c hc
    simp only [List.mem_append] at hc
    rcases hc with hc | hc | hc
    · exact ⟨(hs c hc).1, (hs c hc).2.2⟩
    · rw [List.eq_of_mem_replicate hc]
      cases op <;> decide
    · exact ⟨(ha c hc).1, (ha c hc).2.2⟩
  have hhead : a.head? ≠ some op.char := by
    intro hop
    have := (ha _ (List.mem_of_head? hop)).2.1
    rw [isOperatorChar_char] at this
    cases this
  have hruns : Runs (s ++ (List.replicate (k + 2) op.char ++ a)) 1 (.ok r) := by
    refine .step (firstOperator?_run hs) ((apply_run hhead).trans h) ?_
    rw [trim_of_word hr]
    exact .done (firstOperator?_of_operators (operators_of_word hr [] []))
  refine evaluate_of_runs hruns ?_ ?_ ?_
  · exact Text.trim_eq_self_iff.2 ⟨fun c hc => (hchars c (List.mem_of_head? hc)).1,
      fun c hc => (hchars c (List.mem_of_getLast? hc)).1⟩
  · exact ⟨fun hm => (hchars _ hm).2.1 rfl, fun hm => (hchars _ hm).2.2 rfl⟩
  · rintro (hword | hword) <;>
      · have := congrArg List.length hword
        simp only [List.length_append, List.length_replicate, List.length_singleton] at this
        omega

/-! ## Marking -/

theorem operandBefore_word (hw : ∀ c ∈ w, WordChar c) (a : Text) :
    operandBefore w.reverse a = w.reverse := by
  have := operandBefore_of_clear (b := []) (operators_of_word hw [] a) (ne_space_of_word hw)
    (by simp)
  rwa [List.append_nil] at this

theorem operandAfter_word (hw : ∀ c ∈ w, WordChar c) (b : Text) : operandAfter b w = w := by
  have := operandAfter_of_clear (a := []) (operators_of_word hw b []) (ne_space_of_word hw)
    (by simp)
  rwa [List.append_nil] at this

theorem applyRun_behind (hop : op = .plus ∨ op = .minus) (hw : ∀ c ∈ w, WordChar c)
    (hne : w ≠ []) :
    applyRun w.reverse op n [] = .ok (markEnd op n (w.getLast hne) w.reverse).reverse := by
  simp only [applyRun, if_pos hop, isPostfix, if_true, operandBefore_word hw, List.drop_length]
  rcases List.eq_nil_or_concat' w with rfl | ⟨l, c, rfl⟩
  · exact absurd rfl hne
  · simp

theorem applyRun_before (hop : op = .plus ∨ op = .minus) (hw : ∀ c ∈ w, WordChar c)
    (hne : w ≠ []) : applyRun [] op n w = .ok (markEnd op n (w.head hne) w) := by
  obtain ⟨c, l, rfl⟩ := List.exists_cons_of_ne_nil hne
  have hpostfix : isPostfix (c :: l) = false := by
    simp [isPostfix, ne_space_of_word hw c, (hw c (by simp)).2.1]
  simp only [applyRun, if_pos hop, hpostfix, Bool.false_eq_true, if_false, operandAfter_word hw,
    List.drop_length]
  simp

/-- A run of `+` repeats the last character of the word before it, or else the first one of the word
behind it, and a run of `-` drops as many characters there; each as often as the run is long. -/
theorem evaluate_marked (hw : ∀ c ∈ w, WordChar c) (hne : w ≠ []) (hn : 2 ≤ n) :
    evaluate (w ++ List.replicate n '+') = .ok (w ++ List.replicate n (w.getLast hne)) ∧
    evaluate (w ++ List.replicate n '-') = .ok (w.take (w.length - n)) ∧
    evaluate (List.replicate n '+' ++ w) = .ok (List.replicate n (w.head hne) ++ w) ∧
    evaluate (List.replicate n '-' ++ w) = .ok (w.drop n) := by
  obtain ⟨k, rfl⟩ : ∃ k, n = k + 2 := ⟨n - 2, by omega⟩
  have hreverse : ∀ c ∈ w.reverse, WordChar c := fun c hc => hw c (List.mem_reverse.1 hc)
  have hbehind : ∀ op, op = .plus ∨ op = .minus →
      evaluate (w ++ List.replicate (k + 2) op.char) =
        .ok (markEnd op (k + 2) (w.getLast hne) w.reverse).reverse := by
    intro op hop
    have hmarked : ∀ c ∈ markEnd op (k + 2) (w.getLast hne) w.reverse, WordChar c :=
      wordChar_of_markEnd hreverse (List.mem_reverse.2 (List.getLast_mem hne))
    have heval := evaluate_run hw (by simp) (applyRun_behind hop hw hne)
      fun c hc => hmarked c (List.mem_reverse.1 hc)
    rwa [List.append_nil] at heval
  have hbefore : ∀ op, op = .plus ∨ op = .minus →
      evaluate (List.replicate (k + 2) op.char ++ w) =
        .ok (markEnd op (k + 2) (w.head hne) w) := fun op hop =>
    evaluate_run (s := []) (by simp) hw (applyRun_before hop hw hne)
      (wordChar_of_markEnd hw (List.head_mem hne))
  refine ⟨(hbehind .plus (.inl rfl)).trans ?_, (hbehind .minus (.inr rfl)).trans ?_,
    (hbefore .plus (.inl rfl)).trans rfl, (hbefore .minus (.inr rfl)).trans rfl⟩
  · rw [markEnd, if_pos rfl, List.reverse_append, List.reverse_reverse, List.reverse_replicate]
  · rw [markEnd, if_neg (by decide), List.reverse_drop, List.reverse_reverse,
      List.length_reverse]

/-- A word that begins like a number, and is shorter than the run. -/
theorem evaluate_marked_point :
    let w := ".5é".toList
    (∀ c ∈ w, WordChar c) ∧ w ≠ [] ∧ evaluate ".5é++++".toList = .ok ".5ééééé".toList ∧
      evaluate ".5é----".toList = .ok [] ∧ evaluate "++++.5é".toList = .ok ".....5é".toList ∧
      evaluate "----.5é".toList = .ok [] := by
  intro w
  have hall : w.all (decide <| WordChar ·) = true := by decide
  have hw : ∀ c ∈ w, WordChar c := fun c hc =>
    of_decide_eq_true (List.all_eq_true.1 hall c hc)
  have hne : w ≠ [] := by decide
  exact ⟨hw, hne, evaluate_marked (n := 4) hw hne (by decide)⟩

end Lineage.Expression
