import Lineage.Proofs.Expression.Result
/-!
# Turns of the group loop

`Splices` is one turn of the loop over groups, on the text as a whole: the first group gives way to
its result. A turn does not change what comes out (`evaluateGroup_of_splices`), and no turn can be
followed by others forever, since each leaves fewer `(` (`count_of_splices`).
-/
namespace Lineage.Expression

/-- The text holds no parenthesis. -/
def NoParens (t : Text) : Prop := '(' ∉ t ∧ ')' ∉ t

instance (t : Text) : Decidable (NoParens t) := inferInstanceAs (Decidable (_ ∧ _))

/-- With `depth` groups open around it, a text becomes another by writing the result of its first
group in the group's place. -/
inductive Splices (depth : Nat) : Text → Text → Prop
  | splice {before behind inner rest result : Text} : '(' ∉ before →
      splitClose? 0 behind = some (inner, rest) → depth < maxDepth →
      evaluateGroup (depth + 1) inner [] inner = .ok result →
      Splices depth (before ++ '(' :: behind) (before ++ result ++ rest)

variable {depth : Nat} {whole done rest before behind t u : Text}

theorem evaluate_of_noParens (h : NoParens t) : evaluate t = reduce t := by
  have hc : ([] ++ t).contains ')' = false := by simpa using h.2
  rw [evaluate, evaluateGroup_of_none (Text.splitAt?_eq_none_iff.2 h.1), hc,
    if_neg Bool.false_ne_true, List.nil_append]

/-! ## One turn -/

/-- The first group is evaluated on its own, and its result is put in its place. -/
theorem evaluateGroup_of_some (hs : rest.splitAt? '(' = some (before, behind)) :
    evaluateGroup depth whole done rest =
      match splitClose? 0 behind with
      | none => .error (.unclosed (done ++ rest))
      | some (inner, rest') =>
        if maxDepth ≤ depth then .error .tooDeep
        else match evaluateGroup (depth + 1) inner [] inner with
          | .ok result => evaluateGroup depth whole (done ++ before ++ result) rest'
          | .error e => .error e := by
  rw [evaluateGroup]
  split
  · next hn => simp [hs] at hn
  · next b a he =>
    obtain ⟨rfl, rfl⟩ : before = b ∧ behind = a := by simpa [hs] using he
    split <;> next hc =>
      generalize splitClose? 0 behind = x at hc ⊢
      subst hc
      rfl

/-- It does not matter which part of the text has been looked at, as long as no group is in it. -/
theorem evaluateGroup_done (hd : '(' ∉ done) (rest : Text) :
    evaluateGroup depth whole done rest = evaluateGroup depth whole [] (done ++ rest) := by
  cases hs : rest.splitAt? '(' with
  | none =>
    have hn : (done ++ rest).splitAt? '(' = none := by
      rw [Text.splitAt?_eq_none_iff] at hs ⊢
      simp [hd, hs]
    rw [evaluateGroup_of_none hs, evaluateGroup_of_none hn, List.nil_append]
  | some p =>
    obtain ⟨before, behind⟩ := p
    have hs' : (done ++ rest).splitAt? '(' = some (done ++ before, behind) := by
      rw [Text.splitAt?_eq_some_iff] at hs ⊢
      obtain ⟨rfl, hb⟩ := hs
      exact ⟨by simp, by simp [hd, hb]⟩
    rw [evaluateGroup_of_some hs, evaluateGroup_of_some hs']
    simp only [List.nil_append]

theorem evaluateGroup_of_splices (h : Splices depth t u) (whole : Text) :
    evaluateGroup depth whole [] t = evaluateGroup depth whole [] u := by
  cases h with
  | @splice before behind inner rest result hb hc hdepth hi =>
    have hs : (before ++ '(' :: behind).splitAt? '(' = some (before, behind) :=
      Text.splitAt?_append hb behind
    have hd : '(' ∉ before ++ result := by
      simp [hb, (isResult_of_evaluateGroup hi (by simp)).opened]
    rw [evaluateGroup_of_some hs, hc]
    simp only [if_neg (Nat.not_le.2 hdepth), hi, List.nil_append]
    exact evaluateGroup_done hd rest

/-- Where no turn is possible, the loop is left: all groups are done, or the first one fails. -/
theorem evaluateGroup_of_not_splices (h : ∀ u, ¬ Splices depth t u) :
    '(' ∉ t ∨ ∃ e, ∀ whole, evaluateGroup depth whole [] t = .error e := by
  cases hs : t.splitAt? '(' with
  | none => exact .inl (Text.splitAt?_eq_none_iff.1 hs)
  | some p =>
    obtain ⟨before, behind⟩ := p
    obtain ⟨rfl, hb⟩ := Text.splitAt?_eq_some_iff.1 hs
    refine .inr ?_
    simp only [evaluateGroup_of_some hs]
    cases hc : splitClose? 0 behind with
    | none => exact ⟨_, fun _ => rfl⟩
    | some q =>
      obtain ⟨inner, rest⟩ := q
      dsimp only
      by_cases hdepth : maxDepth ≤ depth
      · exact ⟨_, fun _ => if_pos hdepth⟩
      · simp only [if_neg hdepth]
        cases hi : evaluateGroup (depth + 1) inner [] inner with
        | error e => exact ⟨e, fun _ => rfl⟩
        | ok result => exact absurd (.splice hb hc (Nat.lt_of_not_le hdepth) hi) (h _)

/-- The result of a group holds no `(`, so each turn leaves fewer of them. -/
theorem count_of_splices (h : Splices depth t u) : u.count '(' < t.count '(' := by
  cases h with
  | @splice before behind inner rest result hb hc hdepth hi =>
    have hr := (isResult_of_evaluateGroup hi (by simp)).opened
    have hrest : (')' :: rest).count '(' = rest.count '(' := List.count_cons_of_ne (by decide)
    rw [splitClose?_eq_some hc]
    simp only [List.count_append, List.count_cons_self, hrest, List.count_eq_zero.2 hr]
    omega

/-- The loop ends: there is no endless sequence of turns. -/
theorem wellFounded_splices (depth : Nat) : WellFounded fun u t => Splices depth t u :=
  Subrelation.wf count_of_splices (measure fun t : Text => t.count '(').wf

end Lineage.Expression
