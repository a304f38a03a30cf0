import Lineage.Proofs.Source.Printing
/-!
# Headers of a text

A text that is split into blocks has headers with exactly the names of its blocks
(`hasHeader_iff`). A printed block has its header in the text, whatever stands in its other lines
and even in the names of its parents (`hasHeader_print`).
-/
namespace Lineage

namespace Text

/-! ## Lines of a part -/

theorem linesFrom_newline (cur a r : Text) :
    linesFrom cur (a ++ '\n' :: r) = linesFrom cur (a ++ ['\n']) ++ lines r := by
  induction a generalizing cur with
  | nil => rfl
  | cons c a ih =>
    by_cases hc : c = '\n'
    · subst hc
      rw [List.cons_append, linesFrom, ih, List.cons_append, linesFrom, List.cons_append]
    · rw [List.cons_append, linesFrom.eq_3 _ _ _ (by simpa using hc), ih, List.cons_append,
        linesFrom.eq_3 _ _ _ (by simpa using hc)]

/-- A text that ends with a newline has its lines, whatever stands around it. -/
theorem mem_lines_ofLines {ls : List Text} {l x : Text} (hl : l ∈ ls)
    (hx : x ∈ lines (l ++ ['\n'])) : x ∈ lines (ofLines ls) := by
  induction ls with
  | nil => cases hl
  | cons m ls ih =>
    have hlines : lines (ofLines (m :: ls)) = lines (m ++ ['\n']) ++ lines (ofLines ls) := by
      rw [ofLines, List.flatMap_cons, List.append_assoc, List.singleton_append, ← ofLines]
      exact linesFrom_newline [] m (ofLines ls)
    rw [hlines, List.mem_append]
    rcases List.mem_cons.1 hl with rfl | hl
    · exact .inl hx
    · exact .inr (ih hl)

theorem dropReturn_reverse {l : Text} (h : l.getLast? ≠ some '\r') :
    dropReturn l.reverse = l.reverse := by
  rw [List.getLast?_eq_head?_reverse] at h
  cases hr : l.reverse with
  | nil => rfl
  | cons c r =>
    have hc : c ≠ '\r' := by
      rintro rfl
      exact h (by rw [hr]; rfl)
    simp [dropReturn, hc]

theorem lines_cons_dropReturn {l : Text} (hl : '\n' ∉ l) (r : Text) :
    lines (l ++ '\n' :: r) = (dropReturn l.reverse).reverse :: lines r := by
  rw [lines, linesFrom_append fun c hc e => hl (e ▸ hc), List.append_nil, linesFrom, ← lines]

/-- The first line of a text holds what stands before the first newline, up to a carriage
return. -/
theorem exists_first_line {a : Text} (ha : '\n' ∉ a) (hlast : a.getLast? ≠ some '\r') (r : Text) :
    ∃ r', r' <+: r ∧ a ++ r' ∈ lines (a ++ r ++ ['\n']) := by
  cases hsplit : (r ++ ['\n']).splitAt? '\n' with
  | none => simp [splitAt?_eq_none_iff] at hsplit
  | some p =>
    obtain ⟨r₁, r₂⟩ := p
    obtain ⟨heq, hr₁⟩ := splitAt?_eq_some_iff.1 hsplit
    have hprefix : r₁ <+: r := by
      rcases List.prefix_concat_iff.1 ⟨'\n' :: r₂, heq.symm⟩ with rfl | h
      · simp at hr₁
      · exact h
    have hlines : (dropReturn (a ++ r₁).reverse).reverse ∈ lines (a ++ r ++ ['\n']) := by
      have hline : '\n' ∉ a ++ r₁ := by simp [ha, hr₁]
      rw [List.append_assoc, heq, ← List.append_assoc, lines_cons_dropReturn hline]
      exact List.mem_cons_self
    by_cases hreturn : r₁.getLast? = some '\r'
    · -- the carriage return belongs to the end of the line
      obtain ⟨r₀, rfl⟩ := List.getLast?_eq_some_iff.1 hreturn
      refine ⟨r₀, (List.prefix_append ..).trans hprefix, ?_⟩
      simpa [dropReturn] using hlines
    · have hend : (a ++ r₁).getLast? ≠ some '\r' := by
        rw [List.getLast?_append]
        cases h : r₁.getLast? with
        | none => simpa using hlast
        | some c =>
          rw [h] at hreturn
          exact hreturn
      rw [dropReturn_reverse hend, List.reverse_reverse] at hlines
      exact ⟨r₁, hprefix, hlines⟩

theorem trimEnd_append {a : Text} {c : Char} (ha : a.getLast? = some c) (hc : isBlank c = false)
    (r : Text) : trimEnd (a ++ r) = a ++ trimEnd r := by
  have hkeep : a.reverse.dropWhile isBlank = a.reverse := by
    refine dropWhile_of_head? fun d hd => ?_
    rw [List.head?_reverse, ha] at hd
    exact Option.some.inj hd ▸ hc
  simp only [trimEnd, dropEnd, List.reverse_append, List.dropWhile_append, hkeep]
  split
  · next h => simp [List.isEmpty_iff.1 h]
  · simp

end Text

namespace Source

/-- Some line of the text is a header with the name. -/
def HasHeader (t name : Text) : Prop :=
  ∃ line ∈ Text.lines (Block.dropMark t), ∃ h, Header.parse line = .ok h ∧ h.name = name

variable {t line name : Text} {limits : Limits} {above bs : List Block} {b : Block} {number : Nat}

/-! ## Headers and blocks -/

theorem parse_of_head (h : line.trim.head? ≠ some '[') : Header.parse line = .error .noHeader := by
  unfold Header.parse
  split
  · next inner hi =>
    rw [hi] at h
    exact absurd rfl h
  · rfl

/-- A line adds the name of its header, if it is one. -/
theorem mem_names_adds (h : Block.Adds limits number line above bs) :
    name ∈ bs.map Block.name ↔
      name ∈ above.map Block.name ∨ ∃ hd, Header.parse line = .ok hd ∧ hd.name = name := by
  have hnone (hhead : line.trim.head? ≠ some '[') :
      ¬ ∃ hd, Header.parse line = .ok hd ∧ hd.name = name := by
    rw [parse_of_head hhead]
    simp
  cases h with
  | nothing hcontent =>
    refine (or_iff_left (hnone fun hhead => ?_)).symm
    rw [hasContent_of_head hhead] at hcontent
    cases hcontent
  | header _ hparse =>
    rw [Header.parse, Text.trim_trim, ← Header.parse] at hparse
    simp [hparse, or_comm, eq_comm]
  | declaration _ hhead =>
    rw [or_iff_left (hnone hhead)]
    rfl

theorem mem_names_addLines {lines : List Text}
    (h : Block.addLines limits above number lines = .ok bs) : name ∈ bs.map Block.name ↔
      name ∈ above.map Block.name ∨
        ∃ line ∈ lines, ∃ hd, Header.parse line = .ok hd ∧ hd.name = name := by
  induction lines generalizing above number with
  | nil =>
    cases h
    simp
  | cons line lines ih =>
    obtain ⟨mid, hline, h⟩ := Block.addLines_cons_ok_iff.1 h
    rw [ih h, mem_names_adds (Block.addLine_ok_iff.1 hline).2, or_assoc]
    simp only [List.mem_cons, exists_eq_or_imp]

/-- The headers of a text name its blocks. -/
theorem hasHeader_iff (h : Block.ofText t limits = .ok bs) :
    HasHeader t name ↔ name ∈ bs.map Block.name := by
  have hnames : name ∈ bs.reverse.map Block.name ↔ name ∈ [] ∨ HasHeader t name :=
    mem_names_addLines (Block.ofText_ok_iff.1 h).2
  rw [List.map_reverse, List.mem_reverse] at hnames
  rw [hnames, or_iff_right List.not_mem_nil]

/-! ## Headers of printed blocks -/

/-- A name as a header can state it. -/
structure ReadableName (name : Text) : Prop where
  ne : name ≠ []
  trim : name.trim = name
  chars : ∀ c ∈ name, c ≠ ']' ∧ c ≠ '\n'

theorem HasHeader.readableName (h : HasHeader t name) : ReadableName name := by
  obtain ⟨line, hline, hd, hp, rfl⟩ := h
  obtain ⟨hne, htrim, hchars, -⟩ := readable_of_header hp (Text.newline_not_mem_of_lines hline)
  exact ⟨hne, htrim, hchars⟩

/-- Whatever stands behind the colon of a header, it states the name. -/
theorem exists_parse_header (hn : ReadableName name) {r : Text}
    (hr : r = [] ∨ r = [' '] ∨ ∃ q, r = ' ' :: ':' :: q) :
    ∃ h, Header.parse ('[' :: name ++ ']' :: r) = .ok h ∧ h.name = name := by
  have htrim : Text.trim ('[' :: name ++ ']' :: r) = '[' :: name ++ ']' :: r.trimEnd := by
    have hlast : ('[' :: name ++ [']']).getLast? = some ']' := List.getLast?_concat ..
    have happend := Text.trimEnd_append hlast (by decide) r
    rw [List.append_assoc, List.append_assoc, List.singleton_append, List.singleton_append]
      at happend
    exact happend
  have hsplit : (name ++ ']' :: r.trimEnd).splitAt? ']' = some (name, r.trimEnd) :=
    Text.splitAt?_append (fun hm => (hn.chars _ hm).1 rfl) _
  have hparents : ∃ ps, parentsAfter r.trimEnd.trim = .ok ps := by
    rcases hr with rfl | rfl | ⟨q, rfl⟩
    · exact ⟨[], rfl⟩
    · exact ⟨[], rfl⟩
    · have hend : Text.trimEnd (' ' :: ':' :: q) = ' ' :: ':' :: Text.trimEnd q :=
        Text.trimEnd_append (a := [' ', ':']) rfl (by decide) q
      have hboth : Text.trim (' ' :: ':' :: Text.trimEnd q) =
          ':' :: Text.trimEnd (Text.trimEnd q) :=
        Text.trimEnd_append (a := [':']) rfl (by decide) _
      rw [hend, hboth, parentsAfter, if_neg (by simp [isComment, Note.isMark])]
      exact ⟨_, rfl⟩
  obtain ⟨ps, hps⟩ := hparents
  refine ⟨⟨name, ps⟩, ?_, rfl⟩
  rw [Header.parse, htrim]
  simp only [List.cons_append, Header.parseInner, hsplit, hn.trim, hps]
  rw [if_neg (by simp [hn.ne])]
  rfl

/-- A printed block has its header in the text. -/
theorem hasHeader_print (hb : b ∈ bs) (hn : ReadableName b.name) : HasHeader (print bs) b.name := by
  have hopen : '\n' ∉ '[' :: b.name ++ [']'] := by
    simp only [List.cons_append, List.mem_cons, List.mem_append, List.not_mem_nil, or_false,
      not_or]
    exact ⟨by decide, fun hm => (hn.chars _ hm).2 rfl, by decide⟩
  have hlast : ('[' :: b.name ++ [']']).getLast? ≠ some '\r' := by
    rw [List.getLast?_concat]
    decide
  obtain ⟨r, hr, hline⟩ := Text.exists_first_line hopen hlast b.printParents
  have hheader : '[' :: b.name ++ [']'] ++ b.printParents = b.printHeader := by
    simp [Block.printHeader]
  have hmem : b.printHeader ∈ rowsOf bs := (rows_sublist_rowsOf hb).subset List.mem_cons_self
  -- a parent with a newline in its name would cut the header, but only behind the bracket
  have hcases : r = [] ∨ r = [' '] ∨ ∃ q, r = ' ' :: ':' :: q := by
    unfold Block.printParents at hr
    split at hr
    · rcases r with _ | ⟨c, _ | ⟨c', q⟩⟩
      · exact .inl rfl
      · exact .inr (.inl (by simpa using hr))
      · obtain ⟨rfl, hrest⟩ := List.cons_prefix_cons.1 hr
        obtain ⟨rfl, -⟩ := List.cons_prefix_cons.1 hrest
        exact .inr (.inr ⟨q, rfl⟩)
    · exact .inl (List.prefix_nil.1 hr)
  refine ⟨'[' :: b.name ++ ']' :: r, ?_, exists_parse_header hn hcases⟩
  rw [dropMark_print]
  apply Text.mem_lines_ofLines hmem
  rw [hheader] at hline
  simpa using hline

end Source

end Lineage
