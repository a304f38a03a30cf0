import Mathlib.Data.List.Basic
import Mathlib.Data.List.Induction
import Lineage.Proofs.Expression.Budget
import Lineage.Proofs.Number.Grammar
/-!
# Numerals as operands

Which texts stand as one operand, so that the scan for operators passes over them and the scans for
operands end at their ends (`Operand`): what is written for a double (`operand_of_isPlain`), and
every literal that has no sign behind a point and the mark of an exponent (`operand_of_parse?`). An
operator between two such texts is applied to them as they are (`apply_operands`).
-/
namespace Lineage.Expression

/-- The characters of literals. -/
def LiteralChar (c : Char) : Prop := c.isDigit = true ∨ c ∈ ['.', '+', '-', 'e', 'E']

/-- A text that is one operand wherever a sign may stand before it. -/
structure Operand (t : Text) : Prop where
  clear : ∀ b, allowsSign b = true → ∀ a, operators b t a = 0
  chars : ∀ c ∈ t, LiteralChar c
  /-- What follows is no sign. -/
  ends : ∀ b, allowsSign (t.reverse ++ b) = false

/-- A sign behind a point and the mark of an exponent, as in `5.e-3`. -/
def Torn (t : Text) : Prop :=
  ∃ before mark sign after, t = before ++ '.' :: mark :: sign :: after ∧
    (mark = 'e' ∨ mark = 'E') ∧ (sign = '+' ∨ sign = '-')

/-- The second character is no sign. -/
def Signless (e : Text) : Prop := ∀ mark sign r, e = mark :: sign :: r → sign ≠ '+' ∧ sign ≠ '-'

variable {a b e s t u w : Text} {c : Char} {op : Operator} {m n : Nat}

/-! ## Characters -/

theorem LiteralChar.isBlank (h : LiteralChar c) : Text.isBlank c = false := by
  rcases h with h | h
  · exact isBlank_of_isNumeral (.inl h)
  · simp only [List.mem_cons, List.not_mem_nil, or_false] at h
    rcases h with rfl | rfl | rfl | rfl | rfl <;> decide

theorem LiteralChar.ne_paren (h : LiteralChar c) : c ≠ '(' ∧ c ≠ ')' := by
  constructor <;> rintro rfl <;> revert h <;> simp only [LiteralChar] <;> decide

theorem Operand.ne_nil (h : Operand t) : t ≠ [] := by
  rintro rfl
  exact absurd (h.ends []) (by decide)

theorem Operand.ne_space (h : Operand t) (hc : c ∈ t) : c ≠ ' ' := by
  rintro rfl
  exact absurd (h.chars _ hc).isBlank (by decide)

theorem mem_of_head?_append (hne : t ≠ []) (h : (t ++ a).head? = some c) : c ∈ t := by
  rw [List.head?_append_of_ne_nil t hne] at h
  exact List.mem_of_head? h

theorem allowsSign_of_digit (h : c.isDigit = true ∨ c = '.') (b : Text) :
    allowsSign (c :: b) = false := by
  have hop := isOperatorChar_of_isDigit h
  have hother : c ≠ ' ' ∧ c ≠ 'e' ∧ c ≠ 'E' := by
    refine ⟨?_, ?_, ?_⟩ <;> rintro rfl <;> exact absurd h (by decide)
  simp [allowsSign, hop, hother]

/-- Behind digits no sign may stand. -/
theorem allowsSign_of_digits (hw : ∀ c ∈ w, c.isDigit = true ∨ c = '.') (hne : w ≠ [])
    (b : Text) : allowsSign (w.reverse ++ b) = false := by
  rcases List.eq_nil_or_concat' w with rfl | ⟨r, d, rfl⟩
  · exact absurd rfl hne
  · rw [List.reverse_append, List.reverse_singleton, List.append_assoc, List.singleton_append]
    exact allowsSign_of_digit (hw d (by simp)) _

/-! ## What is written for a double -/

theorem operand_of_isPlain (h : Number.IsPlain t) : Operand t := by
  refine ⟨fun b hb a => (operators_of_isPlain h hb a).1, fun c hc => ?_, fun b => ?_⟩
  · rcases isNumeral_of_isPlain h hc with hd | rfl | rfl
    · exact .inl hd
    · exact .inr (by decide)
    · exact .inr (by decide)
  · obtain ⟨w, ht, hne, hw⟩ := h.exists_digits
    rcases ht with rfl | rfl
    · exact allowsSign_of_digits hw hne b
    · rw [List.reverse_cons, List.append_assoc]
      exact allowsSign_of_digits hw hne _

/-! ## Literals -/

theorem digits_of_mantissa (h : Number.Mantissa w) : ∀ c ∈ w, c.isDigit = true ∨ c = '.' := by
  cases h with
  | whole hw => exact fun c hc => .inl (hw.2 c hc)
  | fraction hw hf =>
    intro c hc
    simp only [List.mem_append, List.mem_cons] at hc
    rcases hc with hc | rfl | hc
    · exact .inl (hw c hc)
    · exact .inr rfl
    · exact .inl (hf.2 c hc)

theorem digits_of_pointed (h : Number.Pointed w) : ∀ c ∈ w, c.isDigit = true ∨ c = '.' := by
  cases h with
  | pointed hw =>
    intro c hc
    rcases List.mem_append.1 hc with hc | hc
    · exact .inl (hw.2 c hc)
    · exact .inr (List.mem_singleton.1 hc)

theorem ne_nil_of_mantissa (h : Number.Mantissa w) : w ≠ [] := by
  cases h with
  | whole hw => exact hw.1
  | fraction => simp

theorem chars_of_digits (hw : ∀ c ∈ w, c.isDigit = true ∨ c = '.') : ∀ c ∈ w, LiteralChar c := by
  intro c hc
  rcases hw c hc with hd | rfl
  · exact .inl hd
  · exact .inr (by decide)

theorem chars_of_sign (h : Number.Sign s) : ∀ c ∈ s, LiteralChar c := by
  intro c hc
  cases h with
  | none => cases hc
  | plus | minus =>
    obtain rfl := List.mem_singleton.1 hc
    exact .inr (by decide)

theorem chars_of_exponent (h : Number.Exponent e) : ∀ c ∈ e, LiteralChar c := by
  intro c hc
  cases h with
  | none => cases hc
  | some hmark hs hd =>
    simp only [List.mem_cons, List.mem_append] at hc
    rcases hc with rfl | hc | hc
    · exact .inr (by rcases hmark with rfl | rfl <;> decide)
    · exact chars_of_sign hs c hc
    · exact .inl (hd.2 c hc)

theorem operators_sign (h : Number.Sign s) (hb : allowsSign b = true)
    (ha : startsNumber a = true) : operators b s a = 0 := by
  cases h with
  | none => rfl
  | plus | minus => simp [operators, isSome_operatorAt?, isSign, hb, ha]

theorem isOperatorChar_mark (h : c = 'e' ∨ c = 'E') : isOperatorChar c = false := by
  rcases h with rfl | rfl <;> decide

/-- Only the sign of an exponent depends on what precedes the exponent. -/
theorem operators_exponent (h : Number.Exponent e)
    (hb : b.head?.any Char.isDigit = true ∨ Signless e) (a : Text) : operators b e a = 0 := by
  cases h with
  | none => rfl
  | @some mark s ds hmark hs hd =>
    have hdigits : ∀ c ∈ ds, c.isDigit = true ∨ c = '.' := fun c hc => .inl (hd.2 c hc)
    rw [operators_cons, isSome_operatorAt?, isOperatorChar_mark hmark,
      operators_append, operators_of_digits hdigits]
    -- behind the mark a sign is told from an operator by the digit before the mark
    have hsign : operators (mark :: b) s (ds ++ a) = 0 := by
      rcases hb with hb | hb
      · refine operators_sign hs ?_ (startsNumber_of_digits hdigits hd.1 a)
        rcases hmark with rfl | rfl <;> simp [allowsSign, hb]
      · cases hs with
        | none => rfl
        | plus => exact absurd rfl (hb mark '+' ds rfl).1
        | minus => exact absurd rfl (hb mark '-' ds rfl).2
    rw [hsign, Bool.and_false]
    rfl

/-- The last character of a mantissa is a digit, or it is the point of a pointed one. -/
theorem head?_reverse_mantissa (h : Number.Mantissa w) (b : Text) :
    (w.reverse ++ b).head?.any Char.isDigit = true := by
  have hlast : ∀ ds : Text, Number.Digits ds → ∀ b : Text,
      (ds.reverse ++ b).head?.any Char.isDigit = true := by
    intro ds hds b
    rcases List.eq_nil_or_concat' ds with rfl | ⟨r, d, rfl⟩
    · exact absurd rfl hds.1
    · simpa using hds.2 d (by simp)
  cases h with
  | whole hw => exact hlast _ hw b
  | fraction hw hf =>
    rw [List.reverse_append, List.reverse_cons, List.append_assoc, List.append_assoc]
    exact hlast _ hf _

/-- A sign, digits and points, and an exponent are an operand, if the sign of the exponent is told
from an operator. -/
theorem operand_of_parts {m : Text} (hs : Number.Sign s)
    (hm : ∀ c ∈ m, c.isDigit = true ∨ c = '.') (hne : m ≠ []) (he : Number.Exponent e)
    (hsign : (∀ b, (m.reverse ++ b).head?.any Char.isDigit = true) ∨ Signless e) :
    Operand (s ++ m ++ e) := by
  refine ⟨fun b hb a => ?_, fun c hc => ?_, fun b => ?_⟩
  · rw [List.append_assoc, operators_append, operators_append, operators_of_digits hm,
      operators_exponent he (hsign.imp_left fun h => h _), operators_sign hs hb]
    rw [List.append_assoc]
    exact startsNumber_of_digits hm hne _
  · simp only [List.mem_append] at hc
    rcases hc with (hc | hc) | hc
    · exact chars_of_sign hs c hc
    · exact chars_of_digits hm c hc
    · exact chars_of_exponent he c hc
  · cases he with
    | none =>
      rw [List.append_nil, List.reverse_append, List.append_assoc]
      exact allowsSign_of_digits hm hne _
    | @some mark s' ds _ _ hd =>
      rw [List.reverse_append, List.reverse_cons, List.reverse_append]
      simp only [List.append_assoc]
      exact allowsSign_of_digits (fun c hc => .inl (hd.2 c hc)) hd.1 _

theorem operand_of_signed (h : Number.Signed t) : Operand t := by
  obtain ⟨hs, ⟨hm, he⟩⟩ := h
  rw [← List.append_assoc]
  exact operand_of_parts hs (digits_of_mantissa hm) (ne_nil_of_mantissa hm) he
    (.inl (head?_reverse_mantissa hm))

/-- Behind a point, an exponent with a sign tears a text. -/
theorem signless_of_pointed {m : Text} (hm : Number.Pointed m) (he : Number.Exponent e)
    (hn : ¬ Torn (s ++ m ++ e)) : Signless e := by
  intro mark sign r hr
  have hmark : mark = 'e' ∨ mark = 'E' := by
    cases he with
    | none => cases hr
    | some hmark => exact (List.cons.inj hr).1 ▸ hmark
  obtain ⟨w, hw⟩ : ∃ w, m = w ++ ['.'] := by
    cases hm with
    | pointed hw => exact ⟨_, rfl⟩
  rw [← not_or]
  intro hsign
  exact hn ⟨s ++ w, mark, sign, r, by simp [hw, hr], hmark, hsign⟩

theorem ne_nil_of_pointed (h : Number.Pointed w) : w ≠ [] := by
  cases h with
  | pointed => simp

/-- The reader of literals and the scan for operators agree on every literal that is not torn. -/
theorem operand_of_parse? {x : Float} (h : Number.parse? t = some x) (hn : ¬ Torn t) :
    Operand t := by
  obtain ⟨s, m, e, rfl, hs, hm | hm, he⟩ := Number.exists_parts h
  · exact operand_of_parts hs (digits_of_mantissa hm) (ne_nil_of_mantissa hm) he
      (.inl (head?_reverse_mantissa hm))
  · exact operand_of_parts hs (digits_of_pointed hm) (ne_nil_of_pointed hm) he
      (.inr (signless_of_pointed hm he hn))

/-- The sign of a torn text is taken for an operator. -/
theorem exists_operator_of_torn (h : Torn t) :
    ∃ before c after, t = before ++ c :: after ∧ operatorAt? before.reverse c after ≠ none := by
  obtain ⟨before, mark, sign, after, rfl, hmark, hsign⟩ := h
  refine ⟨before ++ ['.', mark], sign, after, by simp, ?_⟩
  have hallows : isSign (mark :: '.' :: before.reverse) sign after = false := by
    have hop := isOperatorChar_mark hmark
    rcases hmark with rfl | rfl <;> simp [isSign, allowsSign, hop]
  rw [List.reverse_append, operatorAt?]
  simp only [List.reverse_cons, List.reverse_nil, List.nil_append, List.cons_append, hallows]
  rcases hsign with rfl | rfl <;> decide

/-! ## The scans for operands -/

/-- A text without operators between two boundaries is the whole right operand. -/
theorem operandAfter_of_clear (h : operators b t a = 0) (ht : ∀ c ∈ t, c ≠ ' ')
    (ha : ∀ c r, a = c :: r → isBoundary (t.reverse ++ b) c r = true) :
    operandAfter b (t ++ a) = t := by
  induction t generalizing b with
  | nil =>
    cases a with
    | nil => rfl
    | cons c r => exact if_pos (ha c r rfl)
  | cons c t ih =>
    rw [operators_cons, Nat.add_eq_zero_iff] at h
    have hc : isBoundary b c (t ++ a) = false := by
      have hop : (operatorAt? b c (t ++ a)).isSome = false := by simpa using h.1
      simp [isBoundary, ht c, hop]
    rw [List.cons_append, operandAfter, hc, if_neg Bool.false_ne_true]
    exact congrArg (c :: ·) (ih h.2 (fun d hd => ht d (by simp [hd])) (by simpa using ha))

/-- A text without operators between two boundaries is the whole left operand. -/
theorem operandBefore_of_clear (h : operators b t a = 0) (ht : ∀ c ∈ t, c ≠ ' ')
    (hb : ∀ c r, b = c :: r → isBoundary r c (t ++ a) = true) :
    operandBefore (t.reverse ++ b) a = t.reverse := by
  induction t using List.reverseRecOn generalizing a with
  | nil =>
    cases b with
    | nil => rfl
    | cons c r => exact if_pos (hb c r rfl)
  | append_singleton t c ih =>
    rw [operators_append, Nat.add_eq_zero_iff, List.singleton_append] at h
    have hc : isBoundary (t.reverse ++ b) c a = false := by
      have hop : (operatorAt? (t.reverse ++ b) c a).isSome = false := by
        simpa [operators] using h.2
      simp [isBoundary, ht c, hop]
    rw [List.reverse_concat, List.cons_append, operandBefore, hc, if_neg Bool.false_ne_true]
    refine congrArg (c :: ·) (ih h.1 (fun d hd => ht d (by simp [hd])) fun d r hd => ?_)
    simpa using hb d r hd

/-- A space or an operator character is a boundary where no sign may stand. -/
theorem isBoundary_of_isPostfix (h : isPostfix (c :: a) = true) (hb : allowsSign b = false) :
    isBoundary b c a = true := by
  rw [isBoundary, isSome_operatorAt?, isSign, hb, Bool.and_false, Bool.not_false, Bool.true_and]
  exact h

/-- Up to the space before it, a scan backwards takes an operand. -/
theorem operandBefore_operand (ht : Operand t) (hb : b = [] ∨ ∃ r, b = ' ' :: r) (a : Text) :
    operandBefore (t.reverse ++ b) a = t.reverse := by
  refine operandBefore_of_clear (ht.clear b (allowsSign_of_space hb) a) (fun c => ht.ne_space) ?_
  rintro c r rfl
  rcases hb with hb | ⟨r, hb⟩ <;> cases hb
  rfl

/-- Up to the space or operator behind it, a scan forwards takes an operand. -/
theorem operandAfter_operand (ht : Operand t) (hb : allowsSign b = true)
    (ha : isPostfix a = true) : operandAfter b (t ++ a) = t := by
  refine operandAfter_of_clear (ht.clear b hb a) (fun c => ht.ne_space) ?_
  rintro c r rfl
  exact isBoundary_of_isPostfix ha (ht.ends b)

theorem spaces_append (m : Nat) (ht : ∀ c, t.head? = some c → c ≠ ' ') :
    ((List.replicate m ' ' ++ t).takeWhile fun c => c == ' ') = List.replicate m ' ' ∧
      ((List.replicate m ' ' ++ t).dropWhile fun c => c == ' ') = t := by
  have hspaces : ∀ c ∈ List.replicate m ' ', (c == ' ') = true := by
    intro c hc
    rw [List.eq_of_mem_replicate hc]
    rfl
  have hhead : ∀ c, t.head? = some c → (c == ' ') = false := by
    intro c hc
    simpa using ht c hc
  rw [List.takeWhile_append_of_pos hspaces, List.dropWhile_append_of_pos hspaces,
    Text.dropWhile_of_head? hhead]
  cases t with
  | nil => simp
  | cons c t => simp [hhead c rfl]

/-! ## An operator between operands -/

/-- An operator with spaces around it, or none, that is not taken for a sign or for one of several
in a row: a space follows it, or the operand before it comes directly and a digit or a point
follows. -/
def Apart (m n : Nat) (u : Text) : Prop := 0 < n ∨ m = 0 ∧ startsNumber u = true

theorem allowsSign_spaces (n : Nat) (op : Operator) (b : Text) :
    allowsSign (List.replicate n ' ' ++ op.char :: b) = true := by
  cases n with
  | zero => simp [allowsSign]
  | succ n => rfl

/-- Where an operator is applied to both sides, it takes the operands next to it as they are. -/
theorem applyBinary_operands (ht : Operand t) (hu : Operand u)
    (hb : b = [] ∨ ∃ r, b = ' ' :: r) (ha : isPostfix a = true) (op : Operator) (m n : Nat) :
    applyBinary (List.replicate m ' ' ++ (t.reverse ++ b)) op (List.replicate n ' ' ++ (u ++ a)) =
      (combine t op u).map fun r => b.reverse ++ r ++ a := by
  have htne : t.reverse ≠ [] := List.reverse_ne_nil_iff.2 ht.ne_nil
  -- the spaces around the operator end where the operands start
  obtain ⟨htake, hdrop⟩ := spaces_append (t := t.reverse ++ b) m fun c hc =>
    ht.ne_space (List.mem_reverse.1 (mem_of_head?_append htne hc))
  obtain ⟨hutake, hudrop⟩ := spaces_append (t := u ++ a) n fun c hc =>
    hu.ne_space (mem_of_head?_append hu.ne_nil hc)
  have hleft := operandBefore_operand ht hb
  have hright := operandAfter_operand hu
    (allowsSign_spaces n op (List.replicate m ' ' ++ (t.reverse ++ b))) ha
  have hempty : ∀ r : Text, r ≠ [] → r.isEmpty = false := fun r hr => by simpa using hr
  simp only [applyBinary, htake, hdrop, hutake, hudrop, hleft, hright, hempty _ htne,
    hempty _ hu.ne_nil, List.drop_left, List.reverse_reverse, Bool.false_eq_true, if_false]

/-- Behind the operator stands no other one of its kind. -/
theorem takeWhile_of_apart (hu : Operand u) (hn : Apart m n u) (op : Operator) (a : Text) :
    (List.replicate n ' ' ++ (u ++ a)).takeWhile (· == op.char) = [] := by
  cases n with
  | succ n =>
    have hspace : (' ' == op.char) = false := by cases op <;> rfl
    rw [List.replicate_succ, List.cons_append, List.takeWhile_cons_of_neg (by simp [hspace])]
  | zero =>
    have hstart := (hn.resolve_left (Nat.lt_irrefl 0)).2
    obtain ⟨c, r, rfl⟩ := List.exists_cons_of_ne_nil hu.ne_nil
    have hc : isOperatorChar c = false :=
      isOperatorChar_of_isDigit (by simpa [startsNumber] using hstart)
    have hne : c ≠ op.char := by
      rintro rfl
      simp at hc
    simp [hne]

theorem apply_operands (ht : Operand t) (hu : Operand u) (hb : b = [] ∨ ∃ r, b = ' ' :: r)
    (ha : isPostfix a = true) (hn : Apart m n u) (op : Operator) :
    Place.apply ⟨List.replicate m ' ' ++ (t.reverse ++ b), op, List.replicate n ' ' ++ (u ++ a)⟩ =
      (combine t op u).map fun r => b.reverse ++ r ++ a := by
  simp only [Place.apply, takeWhile_of_apart hu hn op a, List.isEmpty_nil, if_true]
  exact applyBinary_operands ht hu hb ha op m n

/-- Behind a text without operators, an operator is the first. -/
theorem firstOperator?_of_clear (h : operators b s (c :: a) = 0)
    (hc : operatorAt? (s.reverse ++ b) c a = some op) :
    firstOperator? b (s ++ c :: a) = some ⟨s.reverse ++ b, op, a⟩ := by
  induction s generalizing b with
  | nil =>
    rw [List.nil_append, firstOperator?]
    simp only [List.reverse_nil, List.nil_append] at hc
    rw [hc]
    rfl
  | cons d s ih =>
    rw [operators_cons, Nat.add_eq_zero_iff] at h
    have hd : operatorAt? b d (s ++ c :: a) = none := by simpa using h.1
    rw [List.cons_append, firstOperator?, hd]
    simpa using ih h.2 (by simpa using hc)

theorem firstOperator?_of_operators (h : operators [] t [] = 0) : firstOperator? [] t = none := by
  cases hp : firstOperator? [] t with
  | none => rfl
  | some p =>
    have hleft := leftmost_of_firstOperator? hp
    rw [hleft.text, operators_append, operators_cons, List.append_nil, List.reverse_reverse,
      List.append_nil, List.append_nil, hleft.here] at h
    simp at h

/-- The first operator behind an operand. -/
theorem firstOperator?_operands (ht : Operand t) (hn : Apart m n u) (op : Operator) (a : Text) :
    firstOperator? []
        (t ++ (List.replicate m ' ' ++ op.char :: (List.replicate n ' ' ++ (u ++ a)))) =
      some ⟨List.replicate m ' ' ++ (t.reverse ++ []), op, List.replicate n ' ' ++ (u ++ a)⟩ := by
  have hspaces : ∀ b a, operators b (List.replicate m ' ') a = 0 :=
    operators_replicate (by decide) m
  have hclear : operators [] (t ++ List.replicate m ' ')
      (op.char :: (List.replicate n ' ' ++ (u ++ a))) = 0 := by
    rw [operators_append, ht.clear [] rfl, hspaces]
  have hsign : isSign ((t ++ List.replicate m ' ').reverse ++ []) op.char
      (List.replicate n ' ' ++ (u ++ a)) = false := by
    cases n with
    | succ n =>
      have hstart : startsNumber (List.replicate (n + 1) ' ' ++ (u ++ a)) = false := rfl
      rw [isSign, hstart, Bool.and_false, Bool.false_and]
    | zero =>
      have hm := (hn.resolve_left (Nat.lt_irrefl 0)).1
      subst hm
      rw [isSign, List.replicate_zero, List.append_nil t, ht.ends, Bool.and_false]
  have hop : operatorAt? ((t ++ List.replicate m ' ').reverse ++ []) op.char
      (List.replicate n ' ' ++ (u ++ a)) = some op := by
    rw [operatorAt?, hsign, Operator.ofChar?_char]
    rfl
  have hfirst := firstOperator?_of_clear hclear hop
  rwa [List.append_assoc, List.reverse_append, List.reverse_replicate, List.append_assoc] at hfirst

end Lineage.Expression
