import Mathlib.Data.List.Infix
import Mathlib.Logic.Relation
import Lineage.Fault
import Lineage.Proofs.Expression.Budget
/-!
# Parentheses

A text is balanced if none of its prefixes holds more `)` than `(` and it holds as many of both. The
evaluation looks at one group after the other, in a text that shrinks; still it takes exactly the
balanced texts that are not nested too deep (`evaluate_parentheses`).
-/
namespace Lineage.Expression

/-- No prefix holds more `)` than `(`, and the totals agree. -/
structure Balanced (t : Text) : Prop where
  above : ∀ p, p <+: t → p.count ')' ≤ p.count '('
  total : t.count ')' = t.count '('

/-- At most `n` groups stand inside each other. -/
def NestedWithin (n : Nat) (t : Text) : Prop := ∀ p, p <+: t → p.count '(' ≤ p.count ')' + n

instance (t : Text) : Decidable (Balanced t) :=
  decidable_of_iff ((∀ p ∈ t.inits, p.count ')' ≤ p.count '(') ∧ t.count ')' = t.count '(')
    ⟨fun h => ⟨fun p hp => h.1 p ((List.mem_inits p t).2 hp), h.2⟩,
      fun h => ⟨fun p hp => h.above p ((List.mem_inits p t).1 hp), h.total⟩⟩

instance (n : Nat) (t : Text) : Decidable (NestedWithin n t) :=
  decidable_of_iff (∀ p ∈ t.inits, p.count '(' ≤ p.count ')' + n)
    ⟨fun h p hp => h p ((List.mem_inits p t).2 hp), fun h p hp => h p ((List.mem_inits p t).1 hp)⟩

/-- How many more `(` than `)` a text holds. -/
def excess (t : Text) : Int := t.count '(' - t.count ')'

/-- The excess of every prefix satisfies `P`. -/
def Levels (P : Int → Prop) (t : Text) : Prop := ∀ p, p <+: t → P (excess p)

variable {depth n : Nat} {whole done rest before behind inner s t u r : Text} {P Q : Int → Prop}
  {e : Failure} {c : Char}

/-! ## Levels -/

@[simp] theorem excess_nil : excess [] = 0 := rfl

@[simp] theorem excess_append (s t : Text) : excess (s ++ t) = excess s + excess t := by
  simp only [excess, List.count_append]
  omega

theorem excess_cons (c : Char) (t : Text) : excess (c :: t) = excess [c] + excess t :=
  excess_append [c] t

@[simp] theorem excess_open (t : Text) : excess ('(' :: t) = 1 + excess t := excess_cons _ t

@[simp] theorem excess_close (t : Text) : excess (')' :: t) = -1 + excess t := excess_cons _ t

theorem excess_other (ho : c ≠ '(') (hc : c ≠ ')') (t : Text) : excess (c :: t) = excess t := by
  simp [excess, ho, hc]

theorem Levels.imp (h : Levels P t) (hpq : ∀ x, P x → Q x) : Levels Q t :=
  fun p hp => hpq _ (h p hp)

theorem Levels.zero (h : Levels P t) : P 0 := h [] List.nil_prefix

theorem Levels.last (h : Levels P t) : P (excess t) := h t List.prefix_rfl

theorem levels_nil : Levels P [] ↔ P 0 :=
  ⟨Levels.zero, fun h p hp => by rwa [List.prefix_nil.1 hp]⟩

theorem levels_cons :
    Levels P (c :: t) ↔ P 0 ∧ Levels (fun x => P (excess [c] + x)) t := by
  constructor
  · refine fun h => ⟨h.zero, fun p hp => ?_⟩
    have := h (c :: p) (List.cons_prefix_cons.2 ⟨rfl, hp⟩)
    rwa [excess_cons] at this
  · rintro ⟨h0, h⟩ p hp
    rcases List.prefix_cons_iff.1 hp with rfl | ⟨q, rfl, hq⟩
    · exact h0
    · rw [excess_cons]
      exact h q hq

@[simp] theorem levels_open : Levels P ('(' :: t) ↔ P 0 ∧ Levels (fun x => P (1 + x)) t :=
  levels_cons

@[simp] theorem levels_close : Levels P (')' :: t) ↔ P 0 ∧ Levels (fun x => P (-1 + x)) t :=
  levels_cons

theorem levels_other (ho : c ≠ '(') (hc : c ≠ ')') : Levels P (c :: t) ↔ Levels P t := by
  rw [levels_cons, excess_other ho hc, excess_nil]
  simp only [Int.zero_add]
  exact and_iff_right_of_imp Levels.zero

theorem levels_append :
    Levels P (s ++ t) ↔ Levels P s ∧ Levels (fun x => P (excess s + x)) t := by
  induction s generalizing P with
  | nil =>
    simp only [List.nil_append, levels_nil, excess_nil, Int.zero_add]
    exact ⟨fun h => ⟨h.zero, h⟩, And.right⟩
  | cons c s ih =>
    rw [List.cons_append, levels_cons, ih, levels_cons, excess_cons c s, and_assoc]
    simp only [Int.add_assoc]

theorem excess_of_noParens (h : NoParens t) : excess t = 0 := by
  rw [excess, List.count_eq_zero.2 h.1, List.count_eq_zero.2 h.2]
  rfl

theorem levels_of_noParens (h : NoParens t) : Levels P t ↔ P 0 := by
  refine ⟨Levels.zero, fun h0 p hp => ?_⟩
  rwa [excess_of_noParens ⟨fun hm => h.1 (hp.subset hm), fun hm => h.2 (hp.subset hm)⟩]

theorem balanced_iff : Balanced t ↔ Levels (0 ≤ ·) t ∧ excess t = 0 := by
  constructor
  · rintro ⟨habove, htotal⟩
    exact ⟨fun p hp => by have := habove p hp; simp only [excess]; omega,
      by simp only [excess]; omega⟩
  · rintro ⟨habove, htotal⟩
    refine ⟨fun p hp => ?_, by simp only [excess] at htotal; omega⟩
    have := habove p hp
    simp only [excess] at this
    omega

theorem nestedWithin_iff : NestedWithin n t ↔ Levels (· ≤ n) t := by
  constructor
  · intro h p hp
    have := h p hp
    simp only [excess]
    omega
  · intro h p hp
    have := h p hp
    simp only [excess] at this
    omega

/-- A balanced part can be put in or left out. -/
theorem balanced_insert (h : Balanced t) : Balanced (s ++ t ++ u) ↔ Balanced (s ++ u) := by
  rw [balanced_iff] at h
  simp only [balanced_iff, levels_append, excess_append, h.2, Int.add_zero]
  refine and_congr_left fun _ => and_congr_left fun _ => and_iff_left_of_imp fun hs => ?_
  have := hs.last
  exact h.1.imp fun x hx => by omega

/-! ## The end of a group -/

theorem ne_close (h0 : n = 0 → c = ')' → False) (h1 : ∀ m, n = Nat.succ m → c = ')' → False) :
    c ≠ ')' := by
  cases n with
  | zero => exact h0 rfl
  | succ m => exact h1 m rfl

/-- Up to the `)` that closes the last of `n + 1` groups, the `n` groups inside are closed. -/
theorem levels_of_splitClose? (h : splitClose? n t = some (inner, rest)) :
    Levels (fun x => 0 ≤ n + x) inner ∧ n + excess inner = 0 := by
  fun_induction splitClose? n t generalizing inner rest with
  | case1 => cases h
  | case2 r =>
    cases h
    exact ⟨levels_nil.2 (by omega), rfl⟩
  | case3 n r ih =>
    obtain ⟨⟨i, x⟩, hi, he⟩ := Option.map_eq_some_iff.1 h
    cases he
    obtain ⟨habove, htotal⟩ := ih hi
    simp only [levels_close, excess_close]
    exact ⟨⟨by omega, habove.imp fun x hx => by omega⟩, by omega⟩
  | case4 n r ih =>
    obtain ⟨⟨i, x⟩, hi, he⟩ := Option.map_eq_some_iff.1 h
    cases he
    obtain ⟨habove, htotal⟩ := ih hi
    simp only [levels_open, excess_open]
    exact ⟨⟨by omega, habove.imp fun x hx => by omega⟩, by omega⟩
  | case5 n c r h0 h1 ho ih =>
    obtain ⟨⟨i, x⟩, hi, he⟩ := Option.map_eq_some_iff.1 h
    cases he
    rw [levels_other ho (ne_close h0 h1), excess_other ho (ne_close h0 h1)]
    exact ih hi

theorem balanced_of_splitClose? (h : splitClose? 0 t = some (inner, rest)) : Balanced inner := by
  obtain ⟨habove, htotal⟩ := levels_of_splitClose? h
  exact balanced_iff.2 ⟨habove.imp fun x hx => by omega, by omega⟩

/-- Where no `)` closes the last of `n + 1` groups, no more than `n` are closed. -/
theorem excess_of_splitClose? (h : splitClose? n t = none) : 0 ≤ n + excess t := by
  fun_induction splitClose? n t with
  | case1 n => simp
  | case2 => cases h
  | case3 n r ih =>
    have := ih (Option.map_eq_none_iff.1 h)
    rw [excess_close]
    omega
  | case4 n r ih =>
    have := ih (Option.map_eq_none_iff.1 h)
    rw [excess_open]
    omega
  | case5 n c r h0 h1 ho ih =>
    rw [excess_other ho (ne_close h0 h1)]
    exact ih (Option.map_eq_none_iff.1 h)

/-- `splitClose?` with the counter of a scan that begins at the `(` itself: `none` where the counter
would fall below zero. -/
def countClose? : (count : Nat) → Text → Option (Option (Text × Text))
  | _, [] => some none
  | count, c :: r =>
    if c = '(' then (countClose? (count + 1) r).map (Option.map fun p => (c :: p.1, p.2))
    else if c = ')' then
      match count with
      | 0 => none
      | 1 => some (some ([], r))
      | count + 2 => (countClose? (count + 1) r).map (Option.map fun p => (c :: p.1, p.2))
    else (countClose? count r).map (Option.map fun p => (c :: p.1, p.2))

theorem countClose?_eq (n : Nat) (t : Text) : countClose? (n + 1) t = some (splitClose? n t) := by
  fun_induction splitClose? n t with
  | case1 => rfl
  | case2 => rfl
  | case3 n r ih => simp [countClose?, ih]
  | case4 n r ih => simp [countClose?, ih]
  | case5 n c r h0 h1 ho ih =>
    simp only [countClose?, if_neg ho, if_neg (ne_close h0 h1), ih, Option.map_some]

/-- The scan for the end of a group never closes more groups than are open. -/
theorem countClose?_open (t : Text) : countClose? 0 ('(' :: t) =
    some ((splitClose? 0 t).map fun p => ('(' :: p.1, p.2)) := by
  rw [countClose?, if_pos rfl, countClose?_eq]
  rfl

/-! ## Groups of a balanced text -/

theorem noParens_of_balanced (h : Balanced t) (hp : before <+: t) (ho : '(' ∉ before) :
    NoParens before := by
  refine ⟨ho, List.count_eq_zero.1 ?_⟩
  have := h.above before hp
  rw [List.count_eq_zero.2 ho] at this
  omega

theorem balanced_group (hb : NoParens before) (hi : Balanced inner) :
    Balanced (before ++ '(' :: (inner ++ ')' :: rest)) ↔ Balanced rest := by
  rw [balanced_iff] at hi
  simp only [balanced_iff, levels_append, levels_open, levels_close, excess_append, excess_open,
    excess_close, excess_of_noParens hb, hi.2]
  constructor
  · rintro ⟨⟨-, -, -, -, habove⟩, htotal⟩
    exact ⟨habove.imp fun x hx => by omega, by omega⟩
  · rintro ⟨habove, htotal⟩
    exact ⟨⟨(levels_of_noParens hb).2 (by omega), by omega, hi.1.imp fun x hx => by omega, by omega,
      habove.imp fun x hx => by omega⟩, by omega⟩

/-- A group nests one deeper than what stands in it. -/
theorem nestedWithin_group (hb : NoParens before) (hi : Balanced inner) :
    NestedWithin n (before ++ '(' :: (inner ++ ')' :: rest)) ↔
      0 < n ∧ NestedWithin (n - 1) inner ∧ NestedWithin n rest := by
  rw [balanced_iff] at hi
  simp only [nestedWithin_iff, levels_append, levels_open, levels_close, excess_of_noParens hb,
    hi.2]
  constructor
  · rintro ⟨-, -, hinner, -, hrest⟩
    have := hinner.zero
    exact ⟨by omega, hinner.imp fun x hx => by omega, hrest.imp fun x hx => by omega⟩
  · rintro ⟨hn, hinner, hrest⟩
    exact ⟨(levels_of_noParens hb).2 (by omega), by omega, hinner.imp fun x hx => by omega,
      by omega, hrest.imp fun x hx => by omega⟩

theorem noParens_of_splitAt? (h : Balanced t) (hs : t.splitAt? '(' = none) : NoParens t :=
  noParens_of_balanced h List.prefix_rfl (Text.splitAt?_eq_none_iff.1 hs)

/-- The first group of a balanced text is closed. -/
theorem splitClose?_ne_none (h : Balanced t) (hs : t.splitAt? '(' = some (before, behind)) :
    splitClose? 0 behind ≠ none := by
  obtain ⟨rfl, ho⟩ := Text.splitAt?_eq_some_iff.1 hs
  intro hc
  have hopen := excess_of_splitClose? hc
  have htotal := (balanced_iff.1 h).2
  have hb := noParens_of_balanced h (List.prefix_append ..) ho
  rw [excess_append, excess_of_noParens hb, excess_open] at htotal
  omega

/-- The parts of a balanced text around its first group. -/
theorem group_of_balanced (h : Balanced t) (hs : t.splitAt? '(' = some (before, behind))
    (hc : splitClose? 0 behind = some (inner, rest)) :
    behind = inner ++ ')' :: rest ∧ t = before ++ '(' :: behind ∧ NoParens before ∧
      Balanced inner ∧ Balanced rest := by
  obtain ⟨rfl, ho⟩ := Text.splitAt?_eq_some_iff.1 hs
  obtain rfl := splitClose?_eq_some hc
  have hb := noParens_of_balanced h (List.prefix_append ..) ho
  have hi := balanced_of_splitClose? hc
  exact ⟨rfl, rfl, hb, hi, (balanced_group hb hi).1 h⟩

/-! ## Evaluations that succeed -/

/-- What is evaluated is balanced, and not nested too deep. -/
theorem balanced_of_evaluateGroup (h : evaluateGroup depth whole done rest = .ok r)
    (hd : depth ≤ maxDepth) :
    ')' ∉ done ∧ Balanced rest ∧ NestedWithin (maxDepth - depth) rest := by
  fun_induction evaluateGroup depth whole done rest generalizing r with
  | case1 | case3 | case4 | case6 => cases h
  | case2 depth whole done rest hs hc =>
    have hclose : ')' ∉ done ∧ ')' ∉ rest := by simpa using hc
    have hrest : NoParens rest := ⟨Text.splitAt?_eq_none_iff.1 hs, hclose.2⟩
    exact ⟨hclose.1, balanced_iff.2 ⟨(levels_of_noParens hrest).2 (Int.le_refl 0),
      excess_of_noParens hrest⟩, nestedWithin_iff.2 ((levels_of_noParens hrest).2 (by omega))⟩
  | case5 depth whole done rest before behind hs inner rest' hc hdepth result hi ih1 ih2 =>
    obtain ⟨rfl, hb⟩ := Text.splitAt?_eq_some_iff.1 hs
    obtain rfl := splitClose?_eq_some hc
    obtain ⟨-, hinner, hnested⟩ := ih1 hi (by omega)
    obtain ⟨hdone, hrest, hnested'⟩ := ih2 h hd
    simp only [List.mem_append, not_or] at hdone
    have hb' : NoParens before := ⟨hb, hdone.1.2⟩
    refine ⟨hdone.1.1, (balanced_group hb' hinner).2 hrest,
      (nestedWithin_group hb' hinner).2 ⟨by omega, ?_, hnested'⟩⟩
    rwa [Nat.sub_sub]

/-! ## Evaluations that fail -/

/-- `s` itself, or the text in a group of `s`, with the number of groups around it. -/
inductive GroupOf (s : Text) : Nat → Text → Prop
  | whole : GroupOf s 0 s
  | inside {depth : Nat} {before inner behind : Text} :
      GroupOf s depth (before ++ '(' :: (inner ++ ')' :: behind)) → Balanced inner →
      GroupOf s (depth + 1) inner

/-- A text fails by a step that is taken in a text of it after the groups in there gave way to their
results. -/
def FailsInside (s : Text) (e : Failure) : Prop :=
  ∃ depth body u, GroupOf s depth body ∧ Relation.ReflTransGen (Splices depth) body u ∧
    NoParens u ∧ reduce u = .error e

/-- A balanced text that is not nested too deep can fail only inside. The invariant of the loop is
that `body`, of which the rest is still to come, became `done` and the rest by splicing. -/
theorem failsInside_of_evaluateGroup {body : Text}
    (h : evaluateGroup depth whole done rest = .error e) (hbody : GroupOf s depth body)
    (hsuffix : rest <:+ body)
    (hsplices : Relation.ReflTransGen (Splices depth) body (done ++ rest))
    (hdone : NoParens done) (hrest : Balanced rest)
    (hnested : NestedWithin (maxDepth - depth) rest) : FailsInside s e := by
  fun_induction evaluateGroup depth whole done rest generalizing body with
  | case1 depth whole done rest hs hc =>
    have hclose : ')' ∈ done ∨ ')' ∈ rest := by simpa using hc
    exact absurd hclose (not_or.2 ⟨hdone.2, (noParens_of_splitAt? hrest hs).2⟩)
  | case2 depth whole done rest hs hc =>
    have hplain := noParens_of_splitAt? hrest hs
    have hall : NoParens (done ++ rest) :=
      ⟨by simp [hdone.1, hplain.1], by simp [hdone.2, hplain.2]⟩
    exact ⟨depth, body, done ++ rest, hbody, hsplices, hall, h⟩
  | case3 depth whole done rest before behind hs hc =>
    exact absurd hc (splitClose?_ne_none hrest hs)
  | case4 depth whole done rest before behind hs inner rest' hc hdepth =>
    obtain ⟨rfl, rfl, hb, hinner, -⟩ := group_of_balanced hrest hs hc
    have := ((nestedWithin_group hb hinner).1 hnested).1
    omega
  | case5 depth whole done rest before behind hs inner rest' hc hdepth result hi ih1 ih2 =>
    obtain ⟨rfl, rfl, hb, hinner, hrest'⟩ := group_of_balanced hrest hs hc
    have hresult := isResult_of_evaluateGroup hi (by simp)
    have hsplice : Splices depth (done ++ before ++ '(' :: (inner ++ ')' :: rest'))
        (done ++ before ++ result ++ rest') :=
      .splice (by simp [hdone.1, hb.1]) hc (by omega) hi
    have hsuffix' : rest' <:+ before ++ '(' :: (inner ++ ')' :: rest') :=
      ⟨before ++ '(' :: (inner ++ [')']), by simp⟩
    refine ih2 h hbody (hsuffix'.trans hsuffix) ?_ ⟨?_, ?_⟩ hrest'
      ((nestedWithin_group hb hinner).1 hnested).2.2
    · exact hsplices.tail (by simpa using hsplice)
    · simp [hdone.1, hb.1, hresult.opened]
    · simp [hdone.2, hb.2, hresult.closed]
  | case6 depth whole done rest before behind hs inner rest' hc hdepth f hi ih =>
    obtain ⟨rfl, rfl, hb, hinner, -⟩ := group_of_balanced hrest hs hc
    cases h
    obtain ⟨gone, rfl⟩ := hsuffix
    have hbody' : GroupOf s depth (gone ++ before ++ '(' :: (inner ++ ')' :: rest')) := by
      simpa using hbody
    refine ih hi (.inside hbody' hinner) List.suffix_rfl .refl ⟨by simp, by simp⟩ hinner ?_
    have := ((nestedWithin_group hb hinner).1 hnested).2.1
    rwa [Nat.sub_sub] at this

/-! ## Evaluation -/

theorem balanced_of_evaluate (h : evaluate t = .ok r) :
    Balanced t ∧ NestedWithin maxDepth t :=
  (balanced_of_evaluateGroup h (Nat.zero_le _)).2

theorem failsInside_of_evaluate (hb : Balanced t) (hn : NestedWithin maxDepth t)
    (h : evaluate t = .error e) : FailsInside t e :=
  failsInside_of_evaluateGroup h .whole List.suffix_rfl .refl ⟨by simp, by simp⟩ hb hn

/-- A balanced text that is not nested too deep never fails for its parentheses, but only by a step
in the text of a group; every other text fails. The scan for the end of a group never closes more
groups than it opened. -/
theorem evaluate_parentheses (t : Text) :
    (Balanced t ∧ NestedWithin maxDepth t → ∀ e, evaluate t = .error e →
      (e ≠ .tooDeep ∧ ∀ w, e ≠ .unclosed w ∧ e ≠ .unopened w) ∧ FailsInside t e) ∧
    (¬ (Balanced t ∧ NestedWithin maxDepth t) →
      ∃ e, evaluate t = .error e ∧ (Cause.expression e).kind = .malformedExpression) ∧
    ∀ behind, countClose? 0 ('(' :: behind) =
      some ((splitClose? 0 behind).map fun p => ('(' :: p.1, p.2)) := by
  refine ⟨fun ⟨hb, hn⟩ e h => ?_, fun hnot => ?_, countClose?_open⟩
  · have hinside := failsInside_of_evaluate hb hn h
    have ⟨_, _, u, _, _, _, hu⟩ := hinside
    have hstep := isOfStep_of_reduce hu
    refine ⟨⟨?_, fun w => ⟨?_, ?_⟩⟩, hinside⟩ <;> rintro rfl <;> cases hstep
  · cases h : evaluate t with
    | ok r => exact absurd (balanced_of_evaluate h) hnot
    | error e => exact ⟨e, rfl, rfl⟩

/-- A balanced text with a product in an inner group that lacks an operand once the group in there
has given way to the empty text. -/
def emptied : Text := "a + (b * (c - c))".toList

theorem evaluate_parentheses_emptied : Balanced emptied ∧ NestedWithin maxDepth emptied ∧
    ∃ e, evaluate emptied = .error e ∧
      (e ≠ .tooDeep ∧ ∀ w, e ≠ .unclosed w ∧ e ≠ .unopened w) ∧ FailsInside emptied e := by
  have hb : Balanced emptied := by decide +kernel
  have hn : NestedWithin maxDepth emptied := by decide +kernel
  have hfails : (evaluate emptied).isOk = false := by decide +kernel
  refine ⟨hb, hn, ?_⟩
  cases h : evaluate emptied with
  | ok r =>
    rw [h] at hfails
    cases hfails
  | error e => exact ⟨e, rfl, (evaluate_parentheses emptied).1 ⟨hb, hn⟩ e h⟩

end Lineage.Expression
