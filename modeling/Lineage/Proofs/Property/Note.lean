import Lineage.Proofs.Source.Readable
/-!
# Notes read back

A note is written as its comment with a tag behind it, and nothing marks the tag off but its braces
or its being a word. `parse_render` says that notes read back whose comments hold no tag already.
-/
namespace Lineage.Note

/-! ## The self-reference tag -/

/-- The word `slf` stands in the text on its own. -/
def HasSelfTag (t : Text) : Prop :=
  ∃ a b, t = a ++ selfTag ++ b ∧ a.getLast?.any isWordChar = false ∧ b.head?.any isWordChar = false

/-- No tag is taken exactly if each place of the word joins another word. -/
theorem takeSelfTag_eq_none_iff {last : Option Char} {t : Text} : takeSelfTag last t = none ↔
    ∀ a b, t = a ++ selfTag ++ b → (a.getLast?.or last).any isWordChar = false →
      b.head?.any isWordChar = true := by
  induction t generalizing last with
  | nil =>
    refine iff_of_true rfl fun a b h => ?_
    have := congrArg List.length h
    simp [selfTag] at this
  | cons c r ih =>
    have hlast : ∀ a : Text, (c :: a).getLast?.or last = a.getLast?.or (some c) := by
      intro a
      rw [List.getLast?_cons]
      cases a.getLast? <;> rfl
    rw [takeSelfTag]
    split
    · next h =>
      simp only [Bool.and_eq_true, Bool.not_eq_true'] at h
      obtain ⟨b, hb⟩ := List.isPrefixOf_iff_prefix.1 h.1.1
      have h2 := h.2
      rw [← hb, List.drop_left] at h2
      refine iff_of_false (by simp) fun hall => ?_
      have := hall [] b hb.symm h.1.2
      rw [h2] at this
      cases this
    · next h =>
      rw [Option.map_eq_none_iff, ih]
      constructor
      · intro hall a b he hw
        cases a with
        | nil =>
          refine Bool.of_not_eq_false fun hb => h ?_
          rw [he, List.nil_append, List.drop_left]
          have hw' : last.any isWordChar = false := hw
          simp [hw', hb]
        | cons d a =>
          simp only [List.cons_append, List.cons.injEq] at he
          obtain ⟨rfl, he⟩ := he
          exact hall a b he (hlast a ▸ hw)
      · intro hall a b he hw
        exact hall (c :: a) b (by rw [he]; rfl) (by rw [hlast a]; exact hw)

theorem takeSelfTag_none_iff {t : Text} : takeSelfTag none t = none ↔ ¬ HasSelfTag t := by
  rw [takeSelfTag_eq_none_iff]
  constructor
  · rintro h ⟨a, b, he, hw, hb⟩
    rw [h a b he (by rwa [Option.or_none])] at hb
    cases hb
  · intro h a b he hw
    rw [Option.or_none] at hw
    exact Bool.of_not_eq_false fun hb => h ⟨a, b, he, hw, hb⟩

/-- A tag is taken out of the text, and what stood around it is joined. -/
theorem takeSelfTag_eq_some {last : Option Char} {t r : Text} (h : takeSelfTag last t = some r) :
    ∃ a b, t = a ++ selfTag ++ b ∧ r = a ++ b ∧ (a.getLast?.or last).any isWordChar = false := by
  induction t generalizing last r with
  | nil => cases h
  | cons c t ih =>
    rw [takeSelfTag] at h
    split at h
    · next hc =>
      simp only [Bool.and_eq_true, Bool.not_eq_true'] at hc
      obtain ⟨b, hb⟩ := List.isPrefixOf_iff_prefix.1 hc.1.1
      cases h
      rw [← hb, List.drop_left]
      exact ⟨[], b, rfl, rfl, hc.1.2⟩
    · obtain ⟨r, hr, rfl⟩ := Option.map_eq_some_iff.1 h
      obtain ⟨a, b, rfl, rfl, hw⟩ := ih hr
      refine ⟨c :: a, b, rfl, rfl, ?_⟩
      rw [List.getLast?_cons]
      cases ha : a.getLast? with
      | none => simpa [ha] using hw
      | some d => simpa [ha] using hw

/-- The text without its first self-reference tag, if it has one. -/
def untagged (t : Text) : Text := (takeSelfTag none t).getD t

theorem untagged_of_none {t : Text} (h : takeSelfTag none t = none) : untagged t = t := by
  rw [untagged, h, Option.getD_none]

theorem untagged_of_some {t r : Text} (h : takeSelfTag none t = some r) : untagged t = r := by
  rw [untagged, h, Option.getD_some]

theorem untagged_sublist (t : Text) : (untagged t).Sublist t := by
  unfold untagged
  cases h : takeSelfTag none t with
  | none => exact List.Sublist.refl t
  | some r =>
    obtain ⟨a, b, rfl, rfl, -⟩ := takeSelfTag_eq_some h
    rw [List.append_assoc]
    exact (List.sublist_append_right ..).append_left a

theorem isPrefixOf_append_space {w : Text} (hw : ' ' ∉ w) (t r : Text) :
    w.isPrefixOf (t ++ ' ' :: r) = w.isPrefixOf t := by
  induction w generalizing t with
  | nil => simp
  | cons c w ih =>
    simp only [List.mem_cons, not_or] at hw
    cases t with
    | nil => simp [List.isPrefixOf, Ne.symm hw.1]
    | cons d t => simp [List.isPrefixOf, ih hw.2]

theorem head?_drop_append_space {w t : Text} (h : w.isPrefixOf t = true) (r : Text) :
    ((t ++ ' ' :: r).drop w.length).head?.any isWordChar =
      (t.drop w.length).head?.any isWordChar := by
  obtain ⟨s, rfl⟩ := List.isPrefixOf_iff_prefix.1 h
  rw [List.append_assoc, List.drop_left, List.drop_left]
  cases s with
  | nil => rfl
  | cons c s => rfl

/-- Whether a tag stands at the head of a text does not depend on what stands behind a space. -/
theorem startsTag_append_space (last : Option Char) (t r : Text) :
    (selfTag.isPrefixOf (t ++ ' ' :: r) && !last.any isWordChar &&
        !((t ++ ' ' :: r).drop selfTag.length).head?.any isWordChar) =
      (selfTag.isPrefixOf t && !last.any isWordChar &&
        !(t.drop selfTag.length).head?.any isWordChar) := by
  rw [isPrefixOf_append_space (by decide)]
  cases hp : selfTag.isPrefixOf t with
  | false => rfl
  | true => rw [head?_drop_append_space hp]

/-- Where a text holds no tag, the first tag stands behind it, if a space comes between. -/
theorem takeSelfTag_append_space {last : Option Char} {t : Text} (h : takeSelfTag last t = none)
    (r : Text) : takeSelfTag last (t ++ ' ' :: r) =
      (takeSelfTag (some ' ') r).map fun s => t ++ ' ' :: s := by
  induction t generalizing last with
  | nil =>
    rw [List.nil_append, takeSelfTag, if_neg (by simp [selfTag, List.isPrefixOf])]
    rfl
  | cons c t ih =>
    rw [takeSelfTag] at h
    split at h
    · cases h
    · next hc =>
      rw [List.cons_append, takeSelfTag, ← List.cons_append, startsTag_append_space, if_neg hc,
        ih (by simpa using h), Option.map_map]
      rfl

/-- A tag in a text comes before those behind it. -/
theorem takeSelfTag_append_space_of_some {last : Option Char} {t s : Text}
    (h : takeSelfTag last t = some s) (r : Text) :
    takeSelfTag last (t ++ ' ' :: r) = some (s ++ ' ' :: r) := by
  induction t generalizing last s with
  | nil => cases h
  | cons c t ih =>
    rw [takeSelfTag] at h
    rw [List.cons_append, takeSelfTag, ← List.cons_append, startsTag_append_space]
    split at h
    · next hc =>
      cases h
      simp only [Bool.and_eq_true] at hc
      obtain ⟨b, hb⟩ := List.isPrefixOf_iff_prefix.1 hc.1.1
      rw [if_pos (by simpa using hc), ← hb, List.append_assoc, List.drop_left, List.drop_left]
    · next hc =>
      obtain ⟨s, hs, rfl⟩ := Option.map_eq_some_iff.1 h
      rw [if_neg hc, ih hs]
      rfl

/-! ## Comments and tags -/

/-- A note whose text is a comment of one line. -/
structure Printable (a : Note) : Prop where
  comment_trim : ∀ c, a.comment = some c → c.trim = c
  comment_head : ∀ c, a.comment = some c → ∃ m r, c = m :: r ∧ isMark m = true
  comment_line : ∀ c, a.comment = some c → '\n' ∉ c
  expression_line : ∀ e, a.derivation = some (.expression e) → '\n' ∉ e

/-- A note that is told from its text: its comment is one, and holds no tag. -/
structure Writable (a : Note) : Prop extends Printable a where
  comment_text : ∀ c, a.comment = some c → Text.trim (c.dropWhile isMark) ≠ []
  comment_open : ∀ c, a.comment = some c → '{' ∉ c
  comment_tag : ∀ c, a.comment = some c → ¬ HasSelfTag c
  expression_trim : ∀ e, a.derivation = some (.expression e) → e.trim = e
  expression_close : ∀ e, a.derivation = some (.expression e) → '}' ∉ e

theorem trimEnd_of_trim {t : Text} (h : t.trim = t) : t.trimEnd = t :=
  Text.dropEnd_of_getLast? (Text.trim_eq_self_iff.1 h).2

theorem trimEnd_append_space {t : Text} (h : t.trim = t) : (t ++ [' ']).trimEnd = t := by
  rw [Text.trimEnd, Text.dropEnd_append (by simp [Text.isBlank, Text.blankCodes]), ← Text.trimEnd,
    trimEnd_of_trim h]

theorem commentOf_eq {c t : Text} (ht : t.trimEnd = c) (hc : Text.trim (c.dropWhile isMark) ≠ []) :
    commentOf t = some c := by
  rw [commentOf, ht, if_neg (by simpa using hc)]

theorem braces?_of_not_mem {t : Text} (h : '{' ∉ t) : braces? t = none := by
  rw [braces?, Text.splitAt?_eq_none_iff.2 h]

theorem braces?_append {t e r : Text} (ht : '{' ∉ t) (he : '}' ∉ e) :
    braces? (t ++ '{' :: (e ++ '}' :: r)) = some (t, e, r) := by
  rw [braces?, Text.splitAt?_append ht]
  simp only [Text.splitAt?_append he, Option.map_some]

theorem braces?_eq_some {t before inside behind : Text}
    (h : braces? t = some (before, inside, behind)) :
    t = before ++ '{' :: (inside ++ '}' :: behind) ∧ '{' ∉ before ∧ '}' ∉ inside := by
  unfold braces? at h
  split at h
  · next before' rest hs =>
    obtain ⟨⟨inside', behind'⟩, hb, he⟩ := Option.map_eq_some_iff.1 h
    simp only [Prod.mk.injEq] at he
    obtain ⟨rfl, rfl, rfl⟩ := he
    obtain ⟨rfl, hbefore⟩ := Text.splitAt?_eq_some_iff.1 hs
    obtain ⟨rfl, hinside⟩ := Text.splitAt?_eq_some_iff.1 hb
    exact ⟨rfl, hbefore, hinside⟩
  · cases h

theorem parse_of_none {t text : Text} (h : t.trim = t) (hb : braces? t = none) :
    (takeSelfTag none t = none → parse t = ⟨commentOf t, none⟩) ∧
      (takeSelfTag none t = some text → parse t = ⟨commentOf text, some .selfReference⟩) := by
  unfold parse
  rw [h, hb]
  simp only
  constructor
  · intro hs
    rw [hs]
  · intro hs
    rw [hs]
    rfl

theorem parse_of_braces {t before inside behind : Text} (h : t.trim = t)
    (hb : braces? t = some (before, inside, behind)) :
    parse t = ⟨commentOf (untagged (before ++ behind)), some (.expression inside.trim)⟩ := by
  unfold parse untagged
  rw [h, hb]
  simp only
  cases takeSelfTag none (before ++ behind) <;> rfl

theorem parse_trim (t : Text) : parse t.trim = parse t := by
  unfold parse
  rw [Text.trim_trim]

theorem trim_append_right {t r : Text} (ht : t.trim = t) (hne : t ≠ []) (hr : r ≠ [])
    (hlast : ∀ c, r.getLast? = some c → Text.isBlank c = false) : (t ++ r).trim = t ++ r := by
  obtain ⟨c, s, rfl⟩ := List.exists_cons_of_ne_nil hne
  refine Text.trim_eq_self_iff.2 ⟨fun d hd => ?_, fun d hd => ?_⟩
  · exact (Text.trim_eq_self_iff.1 ht).1 d (by simpa using hd)
  · rw [Text.getLast?_append_right hr] at hd
    exact hlast d hd

theorem getLast?_tag {r : Text} {m c : Char} (hm : Text.isBlank m = false)
    (h : (r ++ [m]).getLast? = some c) : Text.isBlank c = false := by
  rw [List.getLast?_concat, Option.some.injEq] at h
  rwa [← h]

variable {a : Note}

theorem parse_render_expression {before e : Text} (hb : '{' ∉ before)
    (ht : (before ++ '{' :: e ++ ['}']).trim = before ++ '{' :: e ++ ['}'])
    (hs : takeSelfTag none before = none) (he : e.trim = e) (hc : '}' ∉ e) :
    parse (before ++ '{' :: e ++ ['}']) = ⟨commentOf before, some (.expression e)⟩ := by
  have hsplit : before ++ '{' :: e ++ ['}'] = before ++ '{' :: (e ++ '}' :: []) := by simp
  have hbraces : braces? (before ++ '{' :: e ++ ['}']) = some (before, e, []) := by
    rw [hsplit]
    exact braces?_append hb hc
  rw [parse_of_braces ht hbraces, List.append_nil, untagged_of_none hs, he]

theorem trim_expressionTag (e : Text) :
    Text.trim ('#' :: ' ' :: '{' :: e ++ ['}']) = '#' :: ' ' :: '{' :: e ++ ['}'] := by
  refine Text.trim_eq_self_iff.2 ⟨fun c hc => ?_, fun c => getLast?_tag rfl⟩
  cases hc
  rfl

theorem trim_comment_tag {c r : Text} {m : Char} (ht : c.trim = c) (hne : c ≠ [])
    (hm : Text.isBlank m = false) : Text.trim (c ++ (r ++ [m])) = c ++ (r ++ [m]) :=
  trim_append_right ht hne (by simp) fun _ => getLast?_tag hm

theorem render_comment_expression (c e : Text) :
    render ⟨some c, some (.expression e)⟩ = c ++ (' ' :: '{' :: e ++ ['}']) := by
  simp [render]

/-- A note as it comes from a comment. -/
structure Parsed (a : Note) : Prop where
  comment_trim : ∀ c, a.comment = some c → c.trim = c
  comment_text : ∀ c, a.comment = some c → Text.trim (c.dropWhile isMark) ≠ []
  /-- Braces may be left over only where some were found. -/
  comment_braces : ∀ c, a.comment = some c → a.isExpression = false → braces? c = none
  comment_tag : ∀ c, a.comment = some c → a.derivation = none → ¬ HasSelfTag c
  expression_trim : ∀ e, a.derivation = some (.expression e) → e.trim = e
  expression_close : ∀ e, a.derivation = some (.expression e) → '}' ∉ e

theorem Parsed.ne_nil {c : Text} (h : a.Parsed) (hc : a.comment = some c) : c ≠ [] := by
  rintro rfl
  exact h.comment_text [] hc rfl

theorem braces?_append_selfTag {t : Text} (h : braces? t = none) :
    braces? (t ++ ' ' :: selfTag) = none := by
  have hopen : '{' ∉ ' ' :: selfTag := by decide
  have hclose : '}' ∉ ' ' :: selfTag := by decide
  unfold braces? at h ⊢
  rw [Text.splitAt?_append_right hopen]
  cases hs : t.splitAt? '{' with
  | none => rfl
  | some p =>
    simp only [hs, Option.map_some, Option.map_eq_none_iff] at h ⊢
    rw [Text.splitAt?_append_right hclose, h]
    rfl

/-- A note that comes from a comment reads back, if its comment holds no further tag. -/
theorem Parsed.parse_render (h : a.Parsed) (hfree : ∀ c, a.comment = some c →
    ¬ HasSelfTag c ∧ (a.isExpression = true → '{' ∉ c)) : parse a.render = a := by
  obtain ⟨comment, derivation⟩ := a
  cases comment with
  | none =>
    rcases derivation with _ | _ | e
    · rfl
    · rfl
    · exact @parse_render_expression ['#', ' '] e (by decide) (trim_expressionTag e) rfl
        (h.expression_trim e rfl) (h.expression_close e rfl)
  | some c =>
    have ht := h.comment_trim c rfl
    have hne := h.ne_nil rfl
    have htext := h.comment_text c rfl
    have hs := takeSelfTag_none_iff.2 (hfree c rfl).1
    have hs' := takeSelfTag_append_space hs
    rcases derivation with _ | _ | e
    · rw [render, (@parse_of_none c [] ht (h.comment_braces c rfl rfl)).1 hs,
        commentOf_eq (trimEnd_of_trim ht) htext]
    · have htag : Text.trim (c ++ ' ' :: selfTag) = c ++ ' ' :: selfTag :=
        trim_comment_tag (r := [' ', 's', 'l']) ht hne rfl
      have hb := braces?_append_selfTag (h.comment_braces c rfl rfl)
      rw [render, (parse_of_none htag hb).2 (hs' selfTag)]
      have := commentOf_eq (trimEnd_append_space ht) htext
      exact congrArg (Note.mk · (some .selfReference)) this
    · have hb := (hfree c rfl).2 rfl
      have hsplit : c ++ (' ' :: '{' :: e ++ ['}']) = c ++ [' '] ++ '{' :: e ++ ['}'] := by simp
      have htag := trim_comment_tag (r := ' ' :: '{' :: e) ht hne (rfl : Text.isBlank '}' = false)
      rw [render_comment_expression]
      rw [hsplit] at htag ⊢
      rw [parse_render_expression (by simp [hb]) htag (hs' []) (h.expression_trim e rfl)
        (h.expression_close e rfl), commentOf_eq (trimEnd_append_space ht) htext]

theorem Printable.ne_nil {c : Text} (h : a.Printable) (hc : a.comment = some c) : c ≠ [] := by
  obtain ⟨m, r, rfl, -⟩ := h.comment_head c hc
  exact List.cons_ne_nil m r

theorem Writable.parsed (h : a.Writable) : a.Parsed where
  comment_trim := h.comment_trim
  comment_text := h.comment_text
  comment_braces c hc _ := braces?_of_not_mem (h.comment_open c hc)
  comment_tag c hc _ := h.comment_tag c hc
  expression_trim := h.expression_trim
  expression_close := h.expression_close

/-- Notes read back. -/
theorem parse_render (h : a.Writable) : parse a.render = a :=
  h.parsed.parse_render fun c hc => ⟨h.comment_tag c hc, fun _ => h.comment_open c hc⟩

/-! ## The text of a note -/

theorem newline_not_mem_render (h : a.Printable) : '\n' ∉ a.render := by
  obtain ⟨comment, derivation⟩ := a
  have hc : ∀ c, comment = some c → '\n' ∉ c := h.comment_line
  have he : ∀ e, derivation = some (.expression e) → '\n' ∉ e := h.expression_line
  rcases comment with _ | c <;> rcases derivation with _ | _ | e <;>
    simp_all [render, selfTag]

/-- A printed note has no blanks around it. -/
theorem trim_render (h : a.Printable) : a.render.trim = a.render := by
  obtain ⟨comment, derivation⟩ := a
  cases comment with
  | none =>
    rcases derivation with _ | _ | e
    · rfl
    · rfl
    · exact trim_expressionTag e
  | some c =>
    have ht := h.comment_trim c rfl
    have hne := h.ne_nil rfl
    rcases derivation with _ | _ | e
    · exact ht
    · exact trim_comment_tag (r := [' ', 's', 'l']) ht hne rfl
    · rw [render_comment_expression]
      exact trim_comment_tag ht hne rfl

/-- A printed note starts with a mark. -/
theorem head_render (h : a.Printable) (hne : a.isEmpty = false) :
    ∃ m r, a.render = m :: r ∧ isMark m = true := by
  obtain ⟨comment, derivation⟩ := a
  cases comment with
  | none =>
    rcases derivation with _ | _ | e
    · cases hne
    · exact ⟨'#', _, rfl, rfl⟩
    · exact ⟨'#', _, rfl, rfl⟩
  | some c =>
    obtain ⟨m, r, rfl, hm⟩ := h.comment_head c rfl
    rcases derivation with _ | _ | e
    · exact ⟨m, _, rfl, hm⟩
    · exact ⟨m, _, rfl, hm⟩
    · exact ⟨m, _, rfl, hm⟩

/-! ## Notes of lines -/

theorem eq_of_commentOf {c t : Text} (h : commentOf t = some c) : c = t.trimEnd := by
  unfold commentOf at h
  split at h
  · cases h
  · exact (Option.some.inj h).symm

/-- A text is a comment of one line, blanks at its end apart. -/
def IsComment (t : Text) : Prop := (∃ m r, t = m :: r ∧ isMark m = true) ∧ '\n' ∉ t

theorem trimEnd_mark {m : Char} (hm : isMark m = true) (r : Text) :
    ∃ s, Text.trimEnd (m :: r) = m :: s := by
  obtain ⟨b, hb, he⟩ := Text.exists_dropEnd Text.isBlank (m :: r)
  cases hd : Text.dropEnd Text.isBlank (m :: r) with
  | nil =>
    rw [hd, List.nil_append] at he
    have := hb m (by rw [← he]; simp)
    rw [Source.isBlank_of_isMark hm] at this
    cases this
  | cons c s =>
    rw [hd] at he
    simp only [List.cons_append, List.cons.injEq] at he
    exact ⟨s, by rw [Text.trimEnd, hd, he.1]⟩

theorem trim_trimEnd_mark {m : Char} (hm : isMark m = true) (r : Text) :
    Text.trim (Text.trimEnd (m :: r)) = Text.trimEnd (m :: r) := by
  obtain ⟨s, hs⟩ := trimEnd_mark hm r
  refine Text.trim_eq_self_iff.2 ⟨fun d hd => ?_, fun d hd => Text.getLast?_dropEnd hd⟩
  rw [hs] at hd
  cases hd
  exact Source.isBlank_of_isMark hm

/-- The mark in front stays where a tag is taken out. -/
theorem marked_untagged {t : Text} (ht : ∃ m s, t = m :: s ∧ isMark m = true) :
    ∃ m s, untagged t = m :: s ∧ isMark m = true := by
  cases h : takeSelfTag none t with
  | none => rwa [untagged_of_none h]
  | some r =>
    obtain ⟨m, s, rfl, hm⟩ := ht
    obtain ⟨a, b, he, rfl, -⟩ := takeSelfTag_eq_some h
    rw [untagged_of_some h]
    cases a with
    | nil =>
      simp only [selfTag, List.nil_append, List.cons_append, List.cons.injEq] at he
      rw [he.1] at hm
      cases hm
    | cons c a =>
      simp only [List.cons_append, List.cons.injEq] at he
      exact ⟨c, a ++ b, rfl, he.1 ▸ hm⟩

theorem marked_of_braces? {t before inside behind : Text}
    (ht : ∃ m s, t = m :: s ∧ isMark m = true) (h : braces? t = some (before, inside, behind)) :
    ∃ m s, before ++ behind = m :: s ∧ isMark m = true := by
  obtain ⟨m, s, rfl, hm⟩ := ht
  obtain ⟨he, -, -⟩ := braces?_eq_some h
  cases before with
  | nil =>
    simp only [List.nil_append, List.cons.injEq] at he
    rw [he.1] at hm
    cases hm
  | cons c a =>
    simp only [List.cons_append, List.cons.injEq] at he
    exact ⟨c, a ++ behind, rfl, he.1 ▸ hm⟩

theorem printable_commentOf {t : Text} {d : Option Derivation} (ht : IsComment t)
    (hd : ∀ e, d = some (.expression e) → '\n' ∉ e) : Printable ⟨commentOf t, d⟩ := by
  obtain ⟨⟨m, r, rfl, hm⟩, hn⟩ := ht
  obtain ⟨s, hs⟩ := trimEnd_mark hm r
  refine ⟨fun c hc => ?_, fun c hc => ?_, fun c hc hmem => ?_, hd⟩
  · rw [eq_of_commentOf hc]
    exact trim_trimEnd_mark hm r
  · exact ⟨m, s, (eq_of_commentOf hc).trans hs, hm⟩
  · rw [eq_of_commentOf hc] at hmem
    exact hn ((Text.trimEnd_isPrefix _).subset hmem)

theorem isComment_untagged {t : Text} (ht : IsComment t) : IsComment (untagged t) :=
  ⟨marked_untagged ht.1, fun hm => ht.2 ((untagged_sublist t).subset hm)⟩

theorem isComment_of_braces? {t before inside behind : Text} (ht : IsComment t)
    (h : braces? t = some (before, inside, behind)) :
    IsComment (before ++ behind) ∧ '\n' ∉ inside := by
  obtain ⟨rfl, -, -⟩ := braces?_eq_some h
  have hn := ht.2
  simp only [List.mem_append, List.mem_cons, not_or] at hn
  exact ⟨⟨marked_of_braces? ht.1 h, fun hmem =>
    (List.mem_append.1 hmem).elim hn.1 hn.2.2.2.2⟩, hn.2.2.1⟩

/-- The note of a comment can be printed. -/
theorem printable_parse {raw : Text} (ht : raw.trim = raw) (hc : IsComment raw) :
    (parse raw).Printable := by
  cases hb : braces? raw with
  | none =>
    cases hs : takeSelfTag none raw with
    | none =>
      rw [(@parse_of_none _ [] ht hb).1 hs]
      exact printable_commentOf hc (by simp)
    | some r =>
      rw [(parse_of_none ht hb).2 hs, ← untagged_of_some hs]
      exact printable_commentOf (isComment_untagged hc) (by simp)
  | some p =>
    obtain ⟨before, inside, behind⟩ := p
    obtain ⟨htext, hinside⟩ := isComment_of_braces? hc hb
    rw [parse_of_braces ht hb]
    refine printable_commentOf (isComment_untagged htext) ?_
    rintro _ ⟨⟩
    exact fun hm => hinside (Text.mem_of_mem_trim hm)

end Lineage.Note
