import Lineage.Proofs.Expression.Parentheses
import Lineage.Proofs.Lists
/-!
# Groups in any order

The evaluation takes the leftmost group first, from the outside in. It has the results of a single
reading from left to right that keeps the texts of the open groups on a stack and reduces a group at
its `)` (`toOption_evaluate`). There a group without groups inside and its result leave the same
stack, so that such groups may give way to their results in any order (`evaluate_in_any_order`).
-/
namespace Lineage.Expression

/-- A reading from left to right: the text of the group that was opened last, and of those around
it. -/
structure Reading where
  text : Text
  outer : List Text

namespace Reading

/-- Reads one character; `none` where a group is too deep, closes nothing or has no result. -/
def read? (s : Reading) (c : Char) : Option Reading :=
  if c = '(' then if s.outer.length < maxDepth then some ⟨[], s.text :: s.outer⟩ else none
  else if c = ')' then
    match s.outer with
    | [] => none
    | before :: outer => (reduce s.text).toOption.map fun r => ⟨before ++ r, outer⟩
  else some ⟨s.text ++ [c], s.outer⟩

/-- The result at the end of the text, where no group may be open. -/
def result? (s : Reading) : Option Text := if s.outer = [] then (reduce s.text).toOption else none

/-- The result of a text, read from the start. -/
def evaluate? (t : Text) : Option Text := (t.foldlM read? ⟨[], []⟩).bind result?

variable {s s' : Reading} {t e r : Text} {c : Char}

theorem evaluate?_append (t u : Text) : evaluate? (t ++ u) =
    (t.foldlM read? ⟨[], []⟩).bind fun s => (u.foldlM read? s).bind result? := by
  rw [evaluate?, List.foldlM_append]
  cases t.foldlM read? ⟨[], []⟩ <;> rfl

theorem foldlM_plain (h : NoParens t) (s : Reading) :
    t.foldlM read? s = some ⟨s.text ++ t, s.outer⟩ := by
  induction t generalizing s with
  | nil => simp
  | cons c t ih =>
    simp only [NoParens, List.mem_cons, not_or] at h
    rw [List.foldlM_cons, read?, if_neg (Ne.symm h.1.1), if_neg (Ne.symm h.2.1)]
    simpa using ih ⟨h.1.2, h.2.2⟩ ⟨s.text ++ [c], s.outer⟩

theorem foldlM_open (s : Reading) (t : Text) : ('(' :: t).foldlM read? s =
    if s.outer.length < maxDepth then t.foldlM read? ⟨[], s.text :: s.outer⟩ else none := by
  rw [List.foldlM_cons, read?, if_pos rfl]
  split <;> rfl

theorem foldlM_close (u before : Text) (outer : List Text) (t : Text) :
    (')' :: t).foldlM read? ⟨u, before :: outer⟩ =
      (reduce u).toOption.bind fun r => t.foldlM read? ⟨before ++ r, outer⟩ := by
  rw [List.foldlM_cons, read?, if_neg (by decide), if_pos rfl]
  cases reduce u <;> rfl

/-- A group whose text is read as `x` adds the result of `x` to the text before it. -/
theorem foldlM_group {x : Option Text} (hs : s.outer.length < maxDepth)
    (hx : e.foldlM read? ⟨[], s.text :: s.outer⟩ = x.map (⟨·, s.text :: s.outer⟩)) (post : Text) :
    ('(' :: (e ++ ')' :: post)).foldlM read? s =
      (x.bind fun u => (reduce u).toOption).bind fun r =>
        post.foldlM read? ⟨s.text ++ r, s.outer⟩ := by
  rw [foldlM_open, if_pos hs, List.foldlM_append, hx]
  cases x with
  | none => rfl
  | some u => exact foldlM_close u s.text s.outer post

/-- A group without groups inside does to the stack what its result does. -/
theorem foldlM_innermost (h : NoParens e) (s : Reading) (post : Text) :
    ('(' :: (e ++ ')' :: post)).foldlM read? s =
      if s.outer.length < maxDepth then
        (reduce e).toOption.bind fun r => post.foldlM read? ⟨s.text ++ r, s.outer⟩
      else none := by
  split
  · next hs => exact foldlM_group (x := some e) hs (foldlM_plain h _) post
  · next hs => rw [foldlM_open, if_neg hs]

/-- The stack counts the open groups, up to `maxDepth` of them. -/
theorem length_of_read? (h : s.read? c = some s') (hs : s.outer.length ≤ maxDepth) :
    (s'.outer.length : Int) = s.outer.length + excess [c] ∧ s'.outer.length ≤ maxDepth := by
  unfold read? at h
  split at h
  · next hc =>
    subst hc
    split at h
    · next hlt =>
      cases h
      exact ⟨by simp, hlt⟩
    · cases h
  · next ho =>
    split at h
    · next hc =>
      subst hc
      split at h
      · cases h
      · next before outer houter =>
        obtain ⟨r, -, rfl⟩ := Option.map_eq_some_iff.1 h
        rw [houter, List.length_cons] at hs ⊢
        refine ⟨?_, Nat.le_of_succ_le hs⟩
        simp only [excess_close, excess_nil]
        omega
    · next hc =>
      cases h
      rw [excess_other ho hc]
      exact ⟨by simp, hs⟩

/-- Reading is possible only while the number of open groups is between none and `maxDepth`. -/
theorem levels_of_foldlM (h : t.foldlM read? s = some s') (hs : s.outer.length ≤ maxDepth) :
    (s'.outer.length : Int) = s.outer.length + excess t ∧
      Levels (fun x => 0 ≤ s.outer.length + x ∧ s.outer.length + x ≤ maxDepth) t := by
  induction t generalizing s with
  | nil =>
    cases h
    exact ⟨by simp, levels_nil.2 (by omega)⟩
  | cons c t ih =>
    rw [List.foldlM_cons] at h
    obtain ⟨m, hm, h⟩ := Option.bind_eq_some_iff.1 h
    obtain ⟨hlength, hdepth⟩ := length_of_read? hm hs
    obtain ⟨htotal, hlevels⟩ := ih h hdepth
    rw [levels_cons, excess_cons]
    exact ⟨by omega, by omega, hlevels.imp fun x hx => by omega⟩

theorem balanced_of_evaluate? (h : evaluate? t = some r) :
    Balanced t ∧ NestedWithin maxDepth t := by
  obtain ⟨s, hs, hr⟩ := Option.bind_eq_some_iff.1 h
  obtain ⟨htotal, hlevels⟩ := levels_of_foldlM hs (Nat.zero_le _)
  unfold result? at hr
  split at hr
  · next houter =>
    rw [houter] at htotal
    simp only [List.length_nil] at htotal hlevels
    exact ⟨balanced_iff.2 ⟨hlevels.imp fun x hx => by omega, by omega⟩,
      nestedWithin_iff.2 (hlevels.imp fun x hx => by omega)⟩
  · cases hr

/-- A balanced text that is evaluated at some depth leaves the stack as it was, but for the text on
top, which is what the evaluation reduces in the end. -/
theorem exists_of_evaluateGroup {depth : Nat} {done rest : Text} {outer : List Text} (whole : Text)
    (hdone : ')' ∉ done) (hrest : Balanced rest) (houter : outer.length = depth) :
    ∃ x : Option Text, rest.foldlM read? ⟨done, outer⟩ = x.map (⟨·, outer⟩) ∧
      (evaluateGroup depth whole done rest).toOption = x.bind fun u => (reduce u).toOption := by
  fun_induction evaluateGroup depth whole done rest generalizing outer with
  | case1 depth whole done rest hs hc =>
    have hclose : ')' ∈ done ∨ ')' ∈ rest := by simpa using hc
    exact absurd hclose (not_or.2 ⟨hdone, (noParens_of_splitAt? hrest hs).2⟩)
  | case2 depth whole done rest hs hc =>
    exact ⟨some (done ++ rest), foldlM_plain (noParens_of_splitAt? hrest hs) _, rfl⟩
  | case3 depth whole done rest before behind hs hc =>
    exact absurd hc (splitClose?_ne_none hrest hs)
  | case4 depth whole done rest before behind hs inner rest' hc hdepth =>
    obtain ⟨rfl, rfl, hb, -, -⟩ := group_of_balanced hrest hs hc
    refine ⟨none, ?_, rfl⟩
    rw [List.foldlM_append, foldlM_plain hb]
    exact (foldlM_open _ _).trans (if_neg (by simpa [houter] using hdepth))
  | case5 depth whole done rest before behind hs inner rest' hc hdepth result hi ih1 ih2 =>
    obtain ⟨rfl, rfl, hb, hinner, hrest'⟩ := group_of_balanced hrest hs hc
    have hresult := isResult_of_evaluateGroup hi (by simp)
    obtain ⟨x, hx, hlast⟩ := @ih1 ((done ++ before) :: outer) (by simp) hinner (by simp [houter])
    obtain ⟨y, hy, hlast'⟩ := ih2 (by simp [hdone, hb.2, hresult.closed]) hrest' houter
    refine ⟨y, ?_, hlast'⟩
    rw [List.foldlM_append, foldlM_plain hb, ← hy]
    refine (foldlM_group (by simpa [houter] using hdepth) hx rest').trans ?_
    rw [← hlast, hi]
    rfl
  | case6 depth whole done rest before behind hs inner rest' hc hdepth f hi ih =>
    obtain ⟨rfl, rfl, hb, hinner, -⟩ := group_of_balanced hrest hs hc
    obtain ⟨x, hx, hlast⟩ := @ih ((done ++ before) :: outer) (by simp) hinner (by simp [houter])
    refine ⟨none, ?_, rfl⟩
    rw [List.foldlM_append, foldlM_plain hb]
    refine (foldlM_group (by simpa [houter] using hdepth) hx rest').trans ?_
    rw [← hlast, hi]
    rfl

end Reading

open Reading

/-- One reading has the results of the evaluation. -/
theorem toOption_evaluate (t : Text) : (evaluate t).toOption = evaluate? t := by
  by_cases h : Balanced t
  · obtain ⟨x, hx, hr⟩ := @exists_of_evaluateGroup 0 [] t [] t (by simp) h rfl
    rw [evaluate, hr, evaluate?, hx]
    cases x <;> rfl
  · have h1 : (evaluate t).toOption = none := by
      cases he : evaluate t with
      | ok r => exact absurd (balanced_of_evaluate he).1 h
      | error e => rfl
    have h2 : evaluate? t = none := by
      cases he : evaluate? t with
      | some r => exact absurd (balanced_of_evaluate? he).1 h
      | none => rfl
    rw [h1, h2]

/-! ## Any order -/

/-- Somewhere in a text, a group without groups inside gives way to its result. -/
inductive ReducesGroup : Text → Text → Prop
  | reduce {pre e post r : Text} : NoParens e → reduce e = .ok r →
      ReducesGroup (pre ++ '(' :: (e ++ ')' :: post)) (pre ++ r ++ post)

variable {t u e r pre post : Text}

theorem noParens_of_reduce (he : NoParens e) (h : reduce e = .ok r) : NoParens r :=
  ⟨(isResult_of_reduce h he.1 he.2).opened, (isResult_of_reduce h he.1 he.2).closed⟩

theorem noParens_nil : NoParens [] := by simp [NoParens]

theorem balanced_of_noParens (h : NoParens t) : Balanced t :=
  balanced_iff.2 ⟨(levels_of_noParens h).2 (Int.le_refl 0), excess_of_noParens h⟩

/-- A group without groups inside and a text without groups are balanced alike. -/
theorem balanced_innermost (he : NoParens e) (hr : NoParens r) :
    Balanced (pre ++ '(' :: (e ++ ')' :: post)) ↔ Balanced (pre ++ r ++ post) := by
  have hgroup : Balanced ('(' :: (e ++ [')'])) :=
    (@balanced_group [] [] e noParens_nil (balanced_of_noParens he)).2
      (balanced_of_noParens noParens_nil)
  have hsplit : pre ++ '(' :: (e ++ ')' :: post) = pre ++ ('(' :: (e ++ [')'])) ++ post := by simp
  rw [hsplit, balanced_insert hgroup, balanced_insert (balanced_of_noParens hr)]

theorem nestedWithin_innermost {n : Nat} (he : NoParens e) (hr : NoParens r)
    (h : NestedWithin n (pre ++ '(' :: (e ++ ')' :: post))) :
    NestedWithin n (pre ++ r ++ post) := by
  simp only [nestedWithin_iff, levels_append, levels_open, levels_close, excess_append,
    excess_of_noParens he, excess_of_noParens hr] at h ⊢
  obtain ⟨hpre, -, -, -, hpost⟩ := h
  have := hpre.last
  exact ⟨⟨hpre, (levels_of_noParens hr).2 (by omega)⟩, hpost.imp fun x hx => by omega⟩

/-- The result of a text with a group in it is that of the text with the result of the group. -/
theorem evaluate_innermost (he : NoParens e)
    (hn : Balanced (pre ++ '(' :: (e ++ ')' :: post)) →
      NestedWithin maxDepth (pre ++ '(' :: (e ++ ')' :: post))) :
    (evaluate (pre ++ '(' :: (e ++ ')' :: post))).toOption =
      (reduce e).toOption.bind fun r => (evaluate (pre ++ r ++ post)).toOption := by
  simp only [toOption_evaluate, List.append_assoc, evaluate?_append]
  cases hpre : pre.foldlM read? ⟨[], []⟩ with
  | none => cases reduce e <;> rfl
  | some s =>
    simp only [Option.bind_some, foldlM_innermost he]
    cases hr : reduce e with
    | error f => split <;> rfl
    | ok r =>
      have hr' := noParens_of_reduce he hr
      have hread : (r ++ post).foldlM read? s = post.foldlM read? ⟨s.text ++ r, s.outer⟩ := by
        rw [List.foldlM_append, foldlM_plain hr']
        rfl
      simp only [Except.toOption, Option.bind_some, hread]
      split
      · rfl
      · next hdeep =>
        -- the group stands too deep, so that neither text is balanced
        have hnot : ¬ Balanced (pre ++ r ++ post) := by
          intro h
          have hlevels := nestedWithin_iff.1 (hn ((balanced_innermost he hr').2 h))
          rw [levels_append, levels_open] at hlevels
          have hpre' := (levels_of_foldlM hpre (Nat.zero_le _)).1
          have := hlevels.2.2.zero
          simp only [List.length_nil] at hpre'
          omega
        have hnone : evaluate? (pre ++ r ++ post) = none := by
          cases h : evaluate? (pre ++ r ++ post) with
          | some v => exact absurd (balanced_of_evaluate? h).1 hnot
          | none => rfl
        rw [List.append_assoc, evaluate?_append, hpre, Option.bind_some, hread] at hnone
        exact hnone.symm

/-- A balanced text with a parenthesis has a group without groups inside. -/
theorem exists_innermost (h : Balanced t) (hp : ¬ NoParens t) :
    ∃ pre e post, t = pre ++ '(' :: (e ++ ')' :: post) ∧ NoParens e := by
  have hclose : ')' ∈ t := by
    refine Classical.by_contradiction fun hc => hp ⟨?_, hc⟩
    rw [← List.count_eq_zero, ← h.total, List.count_eq_zero]
    exact hc
  cases hs : t.splitAt? ')' with
  | none => exact absurd hclose (Text.splitAt?_eq_none_iff.1 hs)
  | some p =>
    obtain ⟨before, post⟩ := p
    obtain ⟨rfl, hbefore⟩ := Text.splitAt?_eq_some_iff.1 hs
    have hopen : '(' ∈ before.map id := by
      have := h.above (before ++ [')']) ⟨post, by simp⟩
      rw [List.map_id, ← List.count_pos_iff]
      simp only [List.count_append, List.count_singleton_self] at this
      simp at this
      omega
    -- the last `(` before the first `)`
    obtain ⟨pre, c, e, rfl, rfl, he⟩ := exists_last hopen
    simp only [List.mem_append, List.mem_cons, not_or] at hbefore
    exact ⟨pre, e, post, by simp, by simpa using he, hbefore.2.2⟩

/-- What one group that gives way keeps. -/
theorem evaluate_of_reducesGroup (h : ReducesGroup t u)
    (hn : Balanced t → NestedWithin maxDepth t) :
    (evaluate t).toOption = (evaluate u).toOption ∧ (Balanced u → NestedWithin maxDepth u) := by
  obtain ⟨he, hr⟩ := h
  have hr' := noParens_of_reduce he hr
  refine ⟨?_, fun hb => nestedWithin_innermost he hr' (hn ((balanced_innermost he hr').2 hb))⟩
  rw [evaluate_innermost he hn, hr]
  rfl

theorem evaluate_of_reducesGroups (h : Relation.ReflTransGen ReducesGroup t u)
    (hn : Balanced t → NestedWithin maxDepth t) :
    (evaluate t).toOption = (evaluate u).toOption ∧ (Balanced u → NestedWithin maxDepth u) := by
  induction h with
  | refl => exact ⟨rfl, hn⟩
  | tail _ hstep ih =>
    obtain ⟨heq, hnext⟩ := evaluate_of_reducesGroup hstep ih.2
    exact ⟨ih.1.trans heq, hnext⟩

theorem not_reducesGroup (h : NoParens t) (u : Text) : ¬ ReducesGroup t u := by
  rintro ⟨⟩
  exact h.1 (by simp)

/-- Where no group can give way, there is a result only if no parenthesis is left. -/
theorem noParens_of_stuck (hn : Balanced u → NestedWithin maxDepth u)
    (hstuck : ∀ v, ¬ ReducesGroup u v) (h : evaluate u = .ok r) : NoParens u := by
  refine Classical.by_contradiction fun hp => ?_
  obtain ⟨pre, e, post, rfl, he⟩ := exists_innermost (balanced_of_evaluate h).1 hp
  cases hr : reduce e with
  | ok v => exact hstuck _ (.reduce he hr)
  | error f =>
    have := evaluate_innermost he hn
    rw [h, hr] at this
    cases this

/-- Groups without groups inside may give way to their results in any order: none changes what comes
out, one that has no result is a failure of the whole, and once none is left to give way, there is a
result exactly if no parenthesis is left and the rest has it. A text that is not balanced fails in
any case, whatever its nesting. -/
theorem evaluate_in_any_order (hn : Balanced t → NestedWithin maxDepth t) :
    (∀ pre e post, t = pre ++ '(' :: (e ++ ')' :: post) → NoParens e →
      (∀ r, reduce e = .ok r → (evaluate t).toOption = (evaluate (pre ++ r ++ post)).toOption) ∧
      ∀ f, reduce e = .error f → ∃ f', evaluate t = .error f') ∧
    ∀ u, Relation.ReflTransGen ReducesGroup t u →
      (evaluate t).toOption = (evaluate u).toOption ∧
      ((∀ v, ¬ ReducesGroup u v) → ∀ r, evaluate t = .ok r ↔ NoParens u ∧ reduce u = .ok r) := by
  constructor
  · rintro pre e post rfl he
    have heq := evaluate_innermost he hn
    constructor
    · intro r hr
      rw [heq, hr]
      rfl
    · intro f hf
      rw [hf] at heq
      cases h : evaluate (pre ++ '(' :: (e ++ ')' :: post)) with
      | ok r =>
        rw [h] at heq
        cases heq
      | error f' => exact ⟨f', rfl⟩
  · intro u hu
    obtain ⟨heq, hn'⟩ := evaluate_of_reducesGroups hu hn
    refine ⟨heq, fun hstuck r => ?_⟩
    rw [← toOption_eq_some_iff, heq, toOption_eq_some_iff]
    constructor
    · intro h
      have hp := noParens_of_stuck hn' hstuck h
      exact ⟨hp, evaluate_of_noParens hp ▸ h⟩
    · rintro ⟨hp, h⟩
      exact (evaluate_of_noParens hp).trans h

/-- Two groups, of which the left one holds a third. -/
def twoGroups : Text := "((a + b) - b) + (1e + -5)".toList

/-- `twoGroups` without groups. -/
def noGroups : Text := "a + 1e-5".toList

/-- The right group gives way first, then the left ones from the inside out. -/
theorem evaluate_in_any_order_rightFirst :
    (Balanced twoGroups → NestedWithin maxDepth twoGroups) ∧
    Relation.ReflTransGen ReducesGroup twoGroups noGroups ∧
    evaluate twoGroups = .ok "a1e-5".toList := by
  have h1 : ReducesGroup twoGroups "((a + b) - b) + 1e-5".toList :=
    @ReducesGroup.reduce "((a + b) - b) + ".toList "1e + -5".toList [] "1e-5".toList (by decide)
      (toOption_eq_some_iff.1 (by decide +kernel))
  have h2 : ReducesGroup "((a + b) - b) + 1e-5".toList "(ab - b) + 1e-5".toList :=
    @ReducesGroup.reduce ['('] "a + b".toList " - b) + 1e-5".toList "ab".toList (by decide)
      (toOption_eq_some_iff.1 (by decide +kernel))
  have h3 : ReducesGroup "(ab - b) + 1e-5".toList noGroups :=
    @ReducesGroup.reduce [] "ab - b".toList " + 1e-5".toList ['a'] (by decide)
      (toOption_eq_some_iff.1 (by decide +kernel))
  have hn : Balanced twoGroups → NestedWithin maxDepth twoGroups := fun _ => by decide +kernel
  have hall := ((Relation.ReflTransGen.single h1).tail h2).tail h3
  have hplain : NoParens noGroups := by decide
  have hlast : reduce noGroups = .ok "a1e-5".toList := toOption_eq_some_iff.1 (by decide +kernel)
  exact ⟨hn, hall, (((evaluate_in_any_order hn).2 noGroups hall).2 (not_reducesGroup hplain)
    "a1e-5".toList).2 ⟨hplain, hlast⟩⟩

end Lineage.Expression
