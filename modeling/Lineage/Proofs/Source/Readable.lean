import Lineage.Proofs.Source.Added
import Lineage.Proofs.Text.Trim
/-!
# What is read from lines

Blocks read from a text are readable: their parts are trimmed and hold none of the characters that
end them. `readable_of_ofText` says so for every block of a text.
-/
namespace Lineage

/-- A line holds no newline. -/
theorem Text.newline_not_mem_of_linesFrom {cur t l : Text} (hc : '\n' ∉ cur)
    (h : l ∈ linesFrom cur t) : '\n' ∉ l := by
  fun_induction linesFrom cur t with
  | case1 cur hcur => simp at h
  | case2 cur hcur =>
    rw [List.mem_singleton] at h
    simpa [h] using hc
  | case3 cur r ih =>
    rcases List.mem_cons.1 h with rfl | h
    · intro hm
      rw [List.mem_reverse] at hm
      refine hc ?_
      unfold dropReturn at hm
      split at hm
      · exact List.mem_cons_of_mem _ hm
      · exact hm
    · exact ih (by simp) h
  | case4 cur c r hcr ih =>
    have hne : c ≠ '\n' := by rintro rfl; exact hcr rfl
    exact ih (by simpa [Ne.symm hne] using hc) h

theorem Text.newline_not_mem_of_lines {t l : Text} (h : l ∈ lines t) : '\n' ∉ l :=
  newline_not_mem_of_linesFrom (by simp) h

namespace Source

open Block

/-- A key as a line can state it. -/
structure ReadableKey (key : Text) : Prop where
  ne : key ≠ []
  trim : key.trim = key
  head : ∀ c, key.head? = some c → c ≠ '[' ∧ Note.isMark c = false
  chars : ∀ c ∈ key, c ≠ '=' ∧ c ≠ '\n'

/-- A declaration as a line can state it. -/
structure Declaration.Readable (d : Declaration) : Prop where
  key_ne : d.key ≠ []
  key_trim : d.key.trim = d.key
  /-- Otherwise the line would be a header or a comment. -/
  key_head : ∀ c, d.key.head? = some c → c ≠ '[' ∧ Note.isMark c = false
  key_chars : ∀ c ∈ d.key, c ≠ '=' ∧ c ≠ '\n'
  value_trim : d.value.trim = d.value
  value_chars : ∀ c ∈ d.value, Note.isMark c = false ∧ c ≠ '\n'
  comment_trim : ∀ c, d.comment = some c → c.trim = c
  comment_head : ∀ c, d.comment = some c → ∃ m r, c = m :: r ∧ Note.isMark m = true
  comment_chars : ∀ c, d.comment = some c → '\n' ∉ c

/-- A parent as a header can name it. -/
structure ReadableParent (p : Text) : Prop where
  ne : p ≠ []
  trim : p.trim = p
  chars : ∀ c ∈ p, c ≠ ',' ∧ Note.isMark c = false ∧ c ≠ '\n'

/-- A block whose header a text can hold. -/
structure Block.Titled (b : Block) : Prop where
  name_ne : b.name ≠ []
  name_trim : b.name.trim = b.name
  name_chars : ∀ c ∈ b.name, c ≠ ']' ∧ c ≠ '\n'
  parents : ∀ p ∈ b.parents, ReadableParent p

/-- A block as a text can hold it. -/
structure Block.Readable (b : Block) : Prop extends b.Titled where
  declarations : ∀ d ∈ b.declarations, d.Readable

theorem Declaration.Readable.readableKey {d : Declaration} (h : d.Readable) : ReadableKey d.key :=
  ⟨h.key_ne, h.key_trim, h.key_head, h.key_chars⟩

theorem isBlank_of_isMark {c : Char} (h : Note.isMark c = true) : Text.isBlank c = false := by
  simp only [Note.isMark, Bool.or_eq_true, beq_iff_eq] at h
  rcases h with rfl | rfl <;> decide

/-! ## Property lines -/

/-- A line that is neither a header nor a comment is read as a readable declaration: its parts were
trimmed, and cut at the characters that they may not hold. -/
theorem Declaration.readable_of_parse {line : Text} {number : Nat} {d : Declaration}
    (h : Declaration.parse line number = .ok d) (hn : '\n' ∉ line)
    (hh : ∀ c, line.trim.head? = some c → c ≠ '[' ∧ Note.isMark c = false) : d.Readable := by
  simp only [Declaration.parse] at h
  split at h
  · cases h
  · next key rest hs =>
    obtain ⟨rfl, hkey⟩ := Text.splitAt?_eq_some_iff.1 hs
    simp only [List.mem_append, List.mem_cons, not_or] at hn
    split at h
    · cases h
    · next hne =>
      cases h
      have hc : ∀ c, (splitComment rest).2 = some c →
          ∃ m r, c = m :: r ∧ Note.isMark m = true ∧ '\n' ∉ c := by
        intro c hc
        simp only [splitComment, Option.ite_none_left_eq_some, Option.some.injEq] at hc
        obtain ⟨hne, rfl⟩ := hc
        cases hd : rest.dropWhile (! Note.isMark ·) with
        | nil => simp [hd] at hne
        | cons m r =>
          have hm := Text.head?_dropWhile (p := (! Note.isMark ·)) (t := rest) (c := m)
            (by rw [hd]; rfl)
          refine ⟨m, r, rfl, by simpa using hm, fun hmem => hn.2.2 ?_⟩
          exact (List.dropWhile_suffix _).subset (hd ▸ hmem)
      refine ⟨by simpa using hne, Text.trim_trim key, fun c hk => ?_, fun c hk => ?_,
        Text.trim_trim _,
        fun c hv => ?_, fun c hm => ?_, fun c hm => ?_, fun c hm => ?_⟩
      · -- the key begins the line
        obtain ⟨a, b, ha, -, he⟩ := Text.exists_trim key
        obtain ⟨r, hr⟩ : ∃ r, key.trim = c :: r := List.head?_eq_some_iff.1 hk
        refine hh c ?_
        rw [he, hr]
        simpa using Text.head?_trim_append (r := r ++ b ++ '=' :: rest) ha (Text.head?_trim hk)
      · have := Text.mem_of_mem_trim hk
        exact ⟨fun e => hkey (e ▸ this), fun e => hn.1 (e ▸ this)⟩
      · have := Text.mem_of_mem_trim hv
        refine ⟨by simpa using List.mem_takeWhile_imp this, fun e => hn.2.2 ?_⟩
        exact (List.takeWhile_prefix _).subset (e ▸ this)
      · obtain ⟨c', -, rfl⟩ := Option.map_eq_some_iff.1 hm
        exact Text.trim_trim c'
      · obtain ⟨c', hc', rfl⟩ := Option.map_eq_some_iff.1 hm
        obtain ⟨m, r, rfl, hmark, -⟩ := hc c' hc'
        have := Text.head?_trim_append (a := []) (r := r) (by simp [Text.AllBlank])
          (isBlank_of_isMark hmark)
        obtain ⟨s, hs⟩ := List.head?_eq_some_iff.1 this
        exact ⟨m, s, hs, hmark⟩
      · obtain ⟨c', hc', rfl⟩ := Option.map_eq_some_iff.1 hm
        obtain ⟨m, r, -, -, hnl⟩ := hc c' hc'
        exact fun hmem => hnl (Text.mem_of_mem_trim hmem)

/-! ## Header lines -/

theorem mem_of_mem_splitOn {a c : Char} {t q : Text} (hq : q ∈ t.splitOn a) (hc : c ∈ q) :
    c ∈ t ∧ c ≠ a := by
  induction t generalizing q with
  | nil =>
    rw [List.splitOn_nil, List.mem_singleton] at hq
    simp [hq] at hc
  | cons x t ih =>
    rw [List.splitOn_cons_eq_if_modifyHead] at hq
    obtain ⟨h, tl, he⟩ := List.exists_cons_of_ne_nil (List.splitOn_ne_nil a t)
    rw [he, List.modifyHead_cons] at hq
    rw [he] at ih
    by_cases hx : x = a
    · rw [if_pos (by simp [hx])] at hq
      rcases List.mem_cons.1 hq with rfl | hq
      · simp at hc
      · exact (ih hq hc).imp_left (List.mem_cons_of_mem _)
    · rw [if_neg (by simpa using hx)] at hq
      rcases List.mem_cons.1 hq with rfl | hq
      · rcases List.mem_cons.1 hc with rfl | hc
        · exact ⟨List.mem_cons_self .., hx⟩
        · exact (ih (List.mem_cons_self ..) hc).imp_left (List.mem_cons_of_mem _)
      · exact (ih (List.mem_cons_of_mem _ hq) hc).imp_left (List.mem_cons_of_mem _)

theorem readable_of_parentNames {t p : Text} (ht : ∀ c ∈ t, Note.isMark c = false ∧ c ≠ '\n')
    (h : p ∈ parentNames t) : ReadableParent p := by
  simp only [parentNames, List.mem_filter, List.mem_map, Bool.not_eq_eq_eq_not, Bool.not_true,
    List.isEmpty_eq_false_iff] at h
  obtain ⟨⟨q, hq, rfl⟩, hne⟩ := h
  refine ⟨hne, Text.trim_trim q, fun c hc => ?_⟩
  obtain ⟨hm, hne⟩ := mem_of_mem_splitOn hq (Text.mem_of_mem_trim hc)
  exact ⟨hne, ht c hm⟩

/-- The name and the parents of a header can be stated by one. -/
theorem readable_of_header {line : Text} {h : Header} (hp : Header.parse line = .ok h)
    (hn : '\n' ∉ line) :
    h.name ≠ [] ∧ h.name.trim = h.name ∧ (∀ c ∈ h.name, c ≠ ']' ∧ c ≠ '\n') ∧
      ∀ p ∈ h.parents, ReadableParent p := by
  have hn' : '\n' ∉ line.trim := fun hm => hn (Text.mem_of_mem_trim hm)
  unfold Header.parse at hp
  split at hp
  · next inner hi =>
    rw [hi] at hn'
    unfold Header.parseInner at hp
    split at hp
    · cases hp
    · next name rest hs =>
      obtain ⟨rfl, hname⟩ := Text.splitAt?_eq_some_iff.1 hs
      simp only [List.mem_cons, List.mem_append, not_or] at hn'
      split at hp
      · cases hp
      · next hne =>
        cases hps : parentsAfter rest.trim with
        | error c => simp [hps, Except.map] at hp
        | ok ps =>
          simp only [hps, Except.map, Except.ok.injEq] at hp
          subst hp
          refine ⟨by simpa using hne, Text.trim_trim name, fun c hc => ?_, fun p hp => ?_⟩
          · have hm := Text.mem_of_mem_trim hc
            exact ⟨fun e => hname (e ▸ hm), fun e => hn'.2.1 (e ▸ hm)⟩
          · unfold parentsAfter at hps
            split at hps
            · cases hps
              cases hp
            · split at hps
              · next list hl =>
                cases hps
                refine readable_of_parentNames (fun c hc => ⟨?_, fun e => hn'.2.2.2 ?_⟩) hp
                · simpa using List.mem_takeWhile_imp hc
                · refine Text.mem_of_mem_trim ?_
                  rw [hl]
                  exact List.mem_cons_of_mem _ ((List.takeWhile_prefix _).subset (e ▸ hc))
              · cases hps
  · cases hp

/-! ## All lines -/

/-- A line keeps the blocks readable. -/
theorem readable_of_adds {limits : Limits} {above bs : List Block} {number : Nat} {line : Text}
    (h : Adds limits number line above bs) (hn : '\n' ∉ line) (ha : ∀ b ∈ above, b.Readable) :
    ∀ b ∈ bs, b.Readable := by
  cases h with
  | nothing => exact ha
  | header _ hparse =>
    obtain ⟨h1, h2, h3, h4⟩ := readable_of_header hparse fun hm => hn (Text.mem_of_mem_trim hm)
    intro b hb
    rcases List.mem_cons.1 hb with rfl | hb
    · exact ⟨⟨h1, h2, h3, h4⟩, by simp⟩
    · exact ha b hb
  | @declaration block above d hcontent hhead hparse =>
    have hread := Declaration.readable_of_parse hparse hn fun c hc => by
      refine ⟨fun e => hhead (e ▸ hc), ?_⟩
      simp only [hasContent, isComment, hc, Bool.not_eq_true', Bool.or_eq_false_iff] at hcontent
      exact hcontent.2
    have hblock := ha block (by simp)
    intro b hb
    rcases List.mem_cons.1 hb with rfl | hb
    · refine ⟨⟨hblock.name_ne, hblock.name_trim, hblock.name_chars, hblock.parents⟩, ?_⟩
      simp only [List.mem_append, List.mem_singleton]
      rintro d' (hd' | rfl)
      · exact hblock.declarations d' hd'
      · exact hread
    · exact ha b (List.mem_cons_of_mem _ hb)

theorem readable_of_addLines {limits : Limits} {above bs : List Block} {number : Nat}
    {lines : List Text} (h : addLines limits above number lines = .ok bs)
    (hn : ∀ l ∈ lines, '\n' ∉ l) (ha : ∀ b ∈ above, b.Readable) : ∀ b ∈ bs, b.Readable := by
  induction lines generalizing above number with
  | nil =>
    cases h
    exact ha
  | cons line lines ih =>
    obtain ⟨mid, hline, h⟩ := addLines_cons_ok_iff.1 h
    exact ih h (fun l hm => hn l (by simp [hm]))
      (readable_of_adds (addLine_ok_iff.1 hline).2 (hn line (by simp)) ha)

/-- The blocks of a text are readable. -/
theorem readable_of_ofText {t : Text} {limits : Limits} {bs : List Block}
    (h : Block.ofText t limits = .ok bs) : ∀ b ∈ bs, b.Readable := by
  have := readable_of_addLines (ofText_ok_iff.1 h).2 (fun l => Text.newline_not_mem_of_lines)
    (by simp)
  simpa using this

end Source

end Lineage
