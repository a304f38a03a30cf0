import Mathlib.Data.List.Count
import Mathlib.Logic.Function.Iterate
import Lineage.Proofs.Lists
import Lineage.Proofs.Property.Note
/-!
# Notes that stay

A comment is read by its first tags, but a note is written with its tag last. So a note stays as it
is when it is written and read again exactly if no further tag was left in its comment
(`parse_render_iff`): a further tag is taken for the note's own.
-/
namespace Lineage.Note

/-! ## What is left of a comment -/

theorem braces?_eq_none_iff {t : Text} : braces? t = none ↔ ¬ ['{', '}'].Sublist t := by
  unfold braces?
  cases hs : t.splitAt? '{' with
  | none =>
    rw [Text.splitAt?_eq_none_iff] at hs
    exact iff_of_true rfl fun h => hs (left_mem_of_pair h)
  | some p =>
    obtain ⟨a, b⟩ := p
    obtain ⟨rfl, ha⟩ := Text.splitAt?_eq_some_iff.1 hs
    simp only [Option.map_eq_none_iff, Text.splitAt?_eq_none_iff]
    rw [not_iff_not, pair_sublist_append, List.cons_sublist_cons, List.singleton_sublist]
    constructor
    · exact fun h => .inr (.inr h)
    · rintro (h | ⟨h, -⟩ | h)
      · exact absurd (left_mem_of_pair h) ha
      · exact absurd h ha
      · exact h

/-- What is read from a text that starts with a comment mark. -/
theorem parsed_of_marked {t : Text} {d : Option Derivation}
    (ht : ∃ m s, t = m :: s ∧ isMark m = true)
    (hbraces : Note.isExpression ⟨commentOf t, d⟩ = false → braces? t = none)
    (htag : d = none → t.trimEnd = t ∧ ¬ HasSelfTag t)
    (hd : ∀ e, d = some (.expression e) → e.trim = e ∧ '}' ∉ e) : Parsed ⟨commentOf t, d⟩ where
  comment_trim c hc := by
    obtain ⟨m, s, rfl, hm⟩ := ht
    rw [eq_of_commentOf hc]
    exact trim_trimEnd_mark hm s
  comment_text c hc := by
    simp only [commentOf, Option.ite_none_left_eq_some, List.isEmpty_iff] at hc
    obtain ⟨hne, he⟩ := hc
    rwa [Option.some.inj he] at hne
  comment_braces c hc hne := by
    rw [eq_of_commentOf hc, braces?_eq_none_iff]
    exact fun hs => braces?_eq_none_iff.1 (hbraces hne) (hs.trans (Text.trimEnd_isPrefix t).sublist)
  comment_tag c hc hnone := by
    rw [eq_of_commentOf hc, (htag hnone).1]
    exact (htag hnone).2
  expression_trim e he := (hd e he).1
  expression_close e he := (hd e he).2

theorem marked_trim {raw : Text} (h : Source.isComment raw = true) :
    ∃ m s, raw.trim = m :: s ∧ isMark m = true := by
  cases raw with
  | nil => cases h
  | cons m s =>
    have hm : isMark m = true := h
    obtain ⟨r, hr⟩ := trimEnd_mark hm s
    refine ⟨m, r, ?_, hm⟩
    rw [Text.trim, List.dropWhile_cons_of_neg (by simp [Source.isBlank_of_isMark hm]), hr]

/-- What is read of a comment has the form that `Note.Parsed` tells. -/
theorem parsed_parse {raw : Text} (h : Source.isComment raw = true) : (parse raw).Parsed := by
  have htrim : raw.trim.trim = raw.trim := Text.trim_trim raw
  have hmarked := marked_trim h
  rw [← parse_trim]
  generalize raw.trim = t at htrim hmarked
  cases hb : braces? t with
  | none =>
    cases hs : takeSelfTag none t with
    | none =>
      rw [(@parse_of_none t [] htrim hb).1 hs]
      exact parsed_of_marked hmarked (fun _ => hb)
        (fun _ => ⟨trimEnd_of_trim htrim, takeSelfTag_none_iff.1 hs⟩) (by simp)
    | some r =>
      have hbraces : braces? (untagged t) = none := by
        rw [braces?_eq_none_iff] at hb ⊢
        exact fun h => hb (h.trans (untagged_sublist t))
      rw [(parse_of_none htrim hb).2 hs, ← untagged_of_some hs]
      exact parsed_of_marked (marked_untagged hmarked) (fun _ => hbraces) (by simp) (by simp)
  | some p =>
    obtain ⟨before, inside, behind⟩ := p
    have hclose : '}' ∉ inside.trim := fun hm => (braces?_eq_some hb).2.2 (Text.mem_of_mem_trim hm)
    rw [parse_of_braces htrim hb]
    refine parsed_of_marked (marked_untagged (marked_of_braces? hmarked hb)) (fun h => by cases h)
      (by simp) fun e he => ?_
    cases he
    exact ⟨Text.trim_trim inside, hclose⟩

/-! ## Further tags -/

variable {a : Note} {c e : Text}

theorem length_of_takeSelfTag {t r : Text} (h : takeSelfTag none t = some r) :
    r.length + 3 = t.length := by
  obtain ⟨x, y, rfl, rfl, -⟩ := takeSelfTag_eq_some h
  simp [selfTag]
  omega

theorem length_le_of_commentOf {t : Text} (h : commentOf t = some c) : c.length ≤ t.length := by
  rw [eq_of_commentOf h]
  exact (Text.trimEnd_isPrefix t).length_le

/-- The first of two self-reference tags is taken out, and the one behind it stays. -/
theorem Parsed.parse_render_ne_of_selfReference (h : Parsed ⟨some c, some .selfReference⟩)
    (hc : HasSelfTag c) :
    parse (render ⟨some c, some .selfReference⟩) ≠ ⟨some c, some .selfReference⟩ := by
  intro heq
  cases hs : takeSelfTag none c with
  | none => exact takeSelfTag_none_iff.1 hs hc
  | some s =>
    have htag : Text.trim (c ++ ' ' :: selfTag) = c ++ ' ' :: selfTag :=
      trim_comment_tag (r := [' ', 's', 'l']) (h.comment_trim c rfl) (h.ne_nil rfl) rfl
    have hb := braces?_append_selfTag (h.comment_braces c rfl rfl)
    rw [render, (parse_of_none htag hb).2 (takeSelfTag_append_space_of_some hs selfTag)] at heq
    have hcomment : commentOf (s ++ ' ' :: selfTag) = some c := congrArg Note.comment heq
    have hend : Text.trimEnd (s ++ ' ' :: selfTag) = s ++ ' ' :: selfTag := by
      refine Text.dropEnd_of_getLast? fun d hd => ?_
      rw [Text.getLast?_append_right (by simp)] at hd
      cases hd
      rfl
    have hl := congrArg List.length (eq_of_commentOf hcomment)
    have := length_of_takeSelfTag hs
    rw [hend, List.length_append] at hl
    simp only [selfTag, List.length_cons, List.length_nil] at hl
    omega

/-- A self-reference tag before the group is taken out. -/
theorem Parsed.parse_render_ne_of_selfTag (h : Parsed ⟨some c, some (.expression e)⟩)
    (hc : HasSelfTag c) (hopen : '{' ∉ c) :
    parse (render ⟨some c, some (.expression e)⟩) ≠ ⟨some c, some (.expression e)⟩ := by
  intro heq
  cases hs : takeSelfTag none c with
  | none => exact takeSelfTag_none_iff.1 hs hc
  | some s =>
    have htag := trim_comment_tag (r := ' ' :: '{' :: e) (h.comment_trim c rfl) (h.ne_nil rfl)
      (rfl : Text.isBlank '}' = false)
    have hsplit : c ++ (' ' :: '{' :: e ++ ['}']) = c ++ [' '] ++ '{' :: (e ++ '}' :: []) := by simp
    have hb : braces? (c ++ (' ' :: '{' :: e ++ ['}'])) = some (c ++ [' '], e, []) := by
      rw [hsplit]
      exact braces?_append (by simp [hopen]) (h.expression_close e rfl)
    rw [render_comment_expression, parse_of_braces htag hb, List.append_nil,
      untagged_of_some (takeSelfTag_append_space_of_some hs [])] at heq
    have hl := length_le_of_commentOf (congrArg Note.comment heq)
    have := length_of_takeSelfTag hs
    rw [List.length_append, List.length_singleton] at hl
    omega

theorem count_trim {d : Char} (hd : Text.isBlank d = false) (t : Text) :
    t.trim.count d = t.count d := by
  obtain ⟨x, y, hx, hy, he⟩ := Text.exists_trim t
  conv_rhs => rw [he]
  rw [List.count_append, List.count_append, List.count_eq_zero.2 (hx.not_mem hd),
    List.count_eq_zero.2 (hy.not_mem hd), Nat.zero_add, Nat.add_zero]

/-- A group cannot be moved over what stands behind it, with a space before it. -/
theorem group_append_ne {i e : Text} (hi : '}' ∉ i) (he : '}' ∉ e) (z : Text) :
    '{' :: i ++ '}' :: z ≠ z ++ (' ' :: '{' :: e ++ ['}']) := by
  intro heq
  have hleft : Text.splitAt? '}' ('{' :: i ++ '}' :: z) = some ('{' :: i, z) :=
    Text.splitAt?_append (by simpa using hi) z
  rw [heq] at hleft
  cases hz : Text.splitAt? '}' z with
  | none =>
    -- Without a further closing brace, the group on the right is the first one there.
    have hright := Text.splitAt?_append (c := '}') (s := z ++ ' ' :: '{' :: e)
      (by simpa [he] using Text.splitAt?_eq_none_iff.1 hz) []
    rw [show z ++ (' ' :: '{' :: e ++ ['}']) = z ++ ' ' :: '{' :: e ++ '}' :: [] by simp, hright,
      Option.some.injEq, Prod.mk.injEq] at hleft
    rw [← hleft.2] at hleft
    simp at hleft
  | some p =>
    obtain ⟨a, b⟩ := p
    obtain ⟨rfl, ha⟩ := Text.splitAt?_eq_some_iff.1 hz
    rw [List.append_assoc, List.cons_append, Text.splitAt?_append ha, Option.some.injEq,
      Prod.mk.injEq] at hleft
    obtain ⟨rfl, hb⟩ := hleft
    exact group_append_ne hi he b hb.symm
termination_by z.length
decreasing_by
  subst_vars
  simp
  omega

/-- The tag of a comment and an expression is read as it was written. -/
theorem Parsed.trim_tag (h : Parsed ⟨some c, some (.expression e)⟩) :
    Text.trim (c ++ (' ' :: '{' :: e ++ ['}'])) = c ++ (' ' :: '{' :: e ++ ['}']) :=
  trim_comment_tag (h.comment_trim c rfl) (h.ne_nil rfl) (rfl : Text.isBlank '}' = false)

/-- A brace that is not closed in the comment opens a group that reaches into the expression. -/
theorem Parsed.parse_render_ne_of_unclosed {x y : Text}
    (h : Parsed ⟨some (x ++ '{' :: y), some (.expression e)⟩) (hx : '{' ∉ x) (hy : '}' ∉ y) :
    parse (render ⟨some (x ++ '{' :: y), some (.expression e)⟩) ≠
      ⟨some (x ++ '{' :: y), some (.expression e)⟩ := by
  intro heq
  rw [render_comment_expression] at heq
  have hb : braces? (x ++ '{' :: y ++ (' ' :: '{' :: e ++ ['}'])) =
      some (x, y ++ ' ' :: '{' :: e, []) := by
    rw [show x ++ '{' :: y ++ (' ' :: '{' :: e ++ ['}']) =
      x ++ '{' :: (y ++ ' ' :: '{' :: e ++ '}' :: []) by simp]
    exact braces?_append hx (by simp [hy, h.expression_close e rfl])
  rw [parse_of_braces h.trim_tag hb] at heq
  -- the group now holds an opening brace more
  have hinside : Text.trim (y ++ ' ' :: '{' :: e) = e := by
    simpa using congrArg Note.derivation heq
  have hcount := count_trim (d := '{') rfl (y ++ ' ' :: '{' :: e)
  rw [hinside, List.count_append] at hcount
  rw [List.count_cons_of_ne (by decide), List.count_cons_self] at hcount
  omega

/-- A group in the comment is taken for the derivation, and the comment has to do without it. -/
theorem Parsed.parse_render_ne_of_group {x i z : Text}
    (h : Parsed ⟨some (x ++ '{' :: (i ++ '}' :: z)), some (.expression e)⟩) (hx : '{' ∉ x)
    (hi : '}' ∉ i) :
    parse (render ⟨some (x ++ '{' :: (i ++ '}' :: z)), some (.expression e)⟩) ≠
      ⟨some (x ++ '{' :: (i ++ '}' :: z)), some (.expression e)⟩ := by
  intro heq
  rw [render_comment_expression] at heq
  have hb : braces? (x ++ '{' :: (i ++ '}' :: z) ++ (' ' :: '{' :: e ++ ['}'])) =
      some (x, i, z ++ (' ' :: '{' :: e ++ ['}'])) := by
    rw [show x ++ '{' :: (i ++ '}' :: z) ++ (' ' :: '{' :: e ++ ['}']) =
      x ++ '{' :: (i ++ '}' :: (z ++ (' ' :: '{' :: e ++ ['}']))) by simp]
    exact braces?_append hx hi
  rw [parse_of_braces h.trim_tag hb] at heq
  have hinside : Text.trim i = e := by simpa using congrArg Note.derivation heq
  have hcomment : commentOf (untagged (x ++ (z ++ (' ' :: '{' :: e ++ ['}'])))) =
      some (x ++ '{' :: (i ++ '}' :: z)) := congrArg Note.comment heq
  cases hs : takeSelfTag none (x ++ (z ++ (' ' :: '{' :: e ++ ['}']))) with
  | some s =>
    rw [untagged_of_some hs] at hcomment
    have hl := length_le_of_commentOf hcomment
    have := length_of_takeSelfTag hs
    have := (Text.trim_sublist i).length_le
    rw [hinside] at this
    simp only [List.length_append, List.length_cons, List.length_nil] at *
    omega
  | none =>
    have hend : Text.trimEnd (x ++ (z ++ (' ' :: '{' :: e ++ ['}']))) =
        x ++ (z ++ (' ' :: '{' :: e ++ ['}'])) := by
      refine Text.dropEnd_of_getLast? fun d hd => ?_
      rw [← List.append_assoc, ← List.append_assoc, List.getLast?_concat] at hd
      cases hd
      rfl
    rw [untagged_of_none hs] at hcomment
    have := eq_of_commentOf hcomment
    rw [hend, List.append_cancel_left_eq] at this
    exact group_append_ne hi (h.expression_close e rfl) z this

/-- The first of two groups is taken for the derivation. -/
theorem Parsed.parse_render_ne_of_open (h : Parsed ⟨some c, some (.expression e)⟩)
    (hopen : '{' ∈ c) :
    parse (render ⟨some c, some (.expression e)⟩) ≠ ⟨some c, some (.expression e)⟩ := by
  obtain ⟨x, y, rfl, hx⟩ := List.eq_append_cons_of_mem hopen
  by_cases hclose : '}' ∈ y
  · obtain ⟨i, z, rfl, hi⟩ := List.eq_append_cons_of_mem hclose
    exact h.parse_render_ne_of_group hx hi
  · exact h.parse_render_ne_of_unclosed hx hclose

/-! ## The condition -/

/-- No further tag is left in the comment. -/
def Settled (a : Note) : Prop :=
  ∀ c, a.comment = some c → ¬ HasSelfTag c ∧ (a.isExpression = true → '{' ∉ c)

instance (t : Text) : Decidable (HasSelfTag t) :=
  decidable_of_iff ((takeSelfTag none t).isSome = true)
    (by rw [Option.isSome_iff_ne_none, ne_eq, takeSelfTag_none_iff, not_not])

instance (a : Note) : Decidable a.Settled :=
  inferInstanceAs (Decidable (∀ c ∈ a.comment, ¬ HasSelfTag c ∧ (a.isExpression = true → '{' ∉ c)))

theorem Parsed.parse_render_eq_iff (h : a.Parsed) : parse a.render = a ↔ a.Settled := by
  refine ⟨fun heq => ?_, h.parse_render⟩
  rintro c hc
  obtain ⟨_, derivation⟩ := a
  obtain rfl : _ = some c := hc
  rcases derivation with _ | _ | e
  · exact ⟨h.comment_tag c rfl rfl, nofun⟩
  · exact ⟨fun htag => h.parse_render_ne_of_selfReference htag heq, nofun⟩
  · have hopen : '{' ∉ c := fun hm => h.parse_render_ne_of_open hm heq
    exact ⟨fun htag => h.parse_render_ne_of_selfTag htag hopen heq, fun _ => hopen⟩

/-- Writing a note and reading it again keeps it exactly if no further tag is left in its comment,
and then however often it is done. -/
theorem parse_render_iff {raw : Text} (h : Source.isComment raw = true) :
    (parse (parse raw).render = parse raw ↔ (parse raw).Settled) ∧
      ((parse raw).Settled → ∀ n, (fun a => parse a.render)^[n] (parse raw) = parse raw) := by
  have hp := parsed_parse h
  exact ⟨hp.parse_render_eq_iff, fun hs n => Function.iterate_fixed (hp.parse_render hs) n⟩

/-- A word and a group: the word is dropped. -/
def taggedTwice : Text := "# twice slf \x7b$hp * 2\x7d".toList

/-- Two groups: the second one is text. -/
def groupedTwice : Text := "# \x7ba\x7d b \x7bc\x7d".toList

theorem parse_render_iff_twice :
    Source.isComment taggedTwice = true ∧
    (∀ n, (fun a => parse a.render)^[n] (parse taggedTwice) =
      ⟨some "# twice".toList, some (.expression "$hp * 2".toList)⟩) ∧
    Source.isComment groupedTwice = true ∧ ¬ (parse groupedTwice).Settled ∧
    parse (parse groupedTwice).render ≠ parse groupedTwice := by
  have htagged : parse taggedTwice =
      ⟨some "# twice".toList, some (.expression "$hp * 2".toList)⟩ := by decide +kernel
  have hsettled : (parse taggedTwice).Settled := by decide +kernel
  have hopen : ¬ (parse groupedTwice).Settled := by decide +kernel
  have hstays := (@parse_render_iff taggedTwice rfl).2 hsettled
  exact ⟨rfl, fun n => (hstays n).trans htagged, rfl, hopen,
    mt (@parse_render_iff groupedTwice rfl).1.1 hopen⟩

end Lineage.Note
