import Lineage.Proofs.Source.Readable
/-!
# Printed blocks read back

A block is printed as a header and a line for each declaration. Printed blocks are read as blocks
with the same headers and keys; what is read of a value ends at the first mark of a comment
(`ofText_print_within`). Readable blocks come back as they were, with the line numbers of the text
(`ofText_print`).
-/
namespace Lineage

namespace Text

/-- The text of some lines, each with its end. -/
def ofLines (ls : List Text) : Text := ls.flatMap (· ++ ['\n'])

theorem ofLines_append (ls ms : List Text) : ofLines (ls ++ ms) = ofLines ls ++ ofLines ms :=
  List.flatMap_append

/-- A line that comes back from a text as it was written. -/
def IsLine (l : Text) : Prop := '\n' ∉ l ∧ l.getLast? ≠ some '\r'

theorem lines_ofLines {ls : List Text} (h : ∀ l ∈ ls, IsLine l) : lines (ofLines ls) = ls := by
  induction ls with
  | nil => rfl
  | cons l ls ih =>
    obtain ⟨h1, h2⟩ := h l (by simp)
    rw [ofLines, List.flatMap_cons, List.append_assoc, List.singleton_append, ← ofLines,
      lines_cons (fun c hc e => h1 (e ▸ hc)) h2, ih fun m hm => h m (by simp [hm])]

theorem length_le_utf8Size_ofLines (ls : List Text) : ls.length ≤ utf8Size (ofLines ls) := by
  induction ls with
  | nil => exact Nat.zero_le _
  | cons l ls ih =>
    simp only [ofLines, List.flatMap_cons, utf8Size_append, List.length_cons] at ih ⊢
    have : utf8Size ['\n'] = 1 := rfl
    omega

theorem utf8Size_le_ofLines {ls : List Text} {l : Text} (h : l ∈ ls) :
    utf8Size l ≤ utf8Size (ofLines ls) := by
  induction ls with
  | nil => cases h
  | cons m ls ih =>
    simp only [ofLines, List.flatMap_cons, utf8Size_append] at ih ⊢
    rcases List.mem_cons.1 h with rfl | h
    · omega
    · have := ih h
      omega

theorem isLine_of_trim {l : Text} (hn : '\n' ∉ l)
    (ht : ∀ c, l.getLast? = some c → isBlank c = false) :
    IsLine l := by
  refine ⟨hn, fun h => ?_⟩
  have := ht _ h
  revert this
  decide

end Text

namespace Source

/-! ## Property lines -/

/-- What stands behind the sign of a declaration. -/
def Declaration.printRest (d : Declaration) : Text :=
  ' ' :: d.value ++ (d.comment.map (' ' :: ·)).getD []

/-- The line of a declaration. -/
def Declaration.print (d : Declaration) : Text := d.key ++ ' ' :: '=' :: d.printRest

/-- A declaration whose line is read as a property line with its key. -/
structure Declaration.Legible (d : Declaration) : Prop where
  key : ReadableKey d.key
  line : Text.IsLine d.print

/-- What is read of the line of a declaration. -/
def Declaration.reread (d : Declaration) : Declaration :=
  ⟨d.key, (splitComment d.printRest).1.trim, (splitComment d.printRest).2.map Text.trim, 0⟩

variable {d : Declaration} {b : Block}

theorem splitComment_of_none {t : Text} (h : ∀ c ∈ t, Note.isMark c = false) :
    splitComment t = (t, none) := by
  have h' : ∀ c ∈ t, (! Note.isMark c) = true := fun c hc => by simp [h c hc]
  simp [splitComment, List.takeWhile_eq_self_iff.2 h', List.dropWhile_eq_nil_iff.2 h']

theorem splitComment_append {t r : Text} {m : Char} (h : ∀ c ∈ t, Note.isMark c = false)
    (hm : Note.isMark m = true) : splitComment (t ++ m :: r) = (t, some (m :: r)) := by
  have h' : ∀ c ∈ t, (! Note.isMark c) = true := fun c hc => by simp [h c hc]
  simp [splitComment, List.takeWhile_append_of_pos h', List.dropWhile_append_of_pos h', hm]

theorem allBlank_space : Text.AllBlank [' '] := by
  intro c hc
  rw [List.mem_singleton.1 hc]
  decide

theorem allBlank_nil : Text.AllBlank [] := by simp [Text.AllBlank]

/-- The comment of a readable line starts where it was put. -/
theorem splitComment_print (h : d.Readable) :
    (splitComment d.printRest).1.trim = d.value ∧
      (splitComment d.printRest).2.map Text.trim = d.comment := by
  unfold Declaration.printRest
  have hvalue : ∀ c ∈ ' ' :: d.value, Note.isMark c = false := by
    intro c hc
    rcases List.mem_cons.1 hc with rfl | hc
    · decide
    · exact (h.value_chars c hc).1
  cases hc : d.comment with
  | none =>
    have ht := Text.trim_append_blank allBlank_space allBlank_nil h.value_trim
    rw [List.append_nil, List.singleton_append] at ht
    rw [Option.map_none, Option.getD_none, List.append_nil, splitComment_of_none hvalue]
    exact ⟨ht, rfl⟩
  | some c =>
    obtain ⟨m, r, rfl, hm⟩ := h.comment_head c hc
    have hs : splitComment (' ' :: d.value ++ ' ' :: m :: r) =
        (' ' :: d.value ++ [' '], some (m :: r)) := by
      rw [← splitComment_append _ hm]
      · simp
      · intro c' hc'
        rcases List.mem_append.1 hc' with hc' | hc'
        · exact hvalue c' hc'
        · rw [List.mem_singleton.1 hc']
          decide
    have ht := Text.trim_append_blank allBlank_space allBlank_space h.value_trim
    rw [List.singleton_append] at ht
    rw [Option.map_some, Option.getD_some, hs]
    exact ⟨ht, congrArg some (h.comment_trim _ hc)⟩

/-- A readable declaration comes back from its line. -/
theorem reread_of_readable (h : d.Readable) : d.reread = d.unnumbered := by
  obtain ⟨hvalue, hcomment⟩ := splitComment_print h
  rw [Declaration.reread, hvalue, hcomment]
  rfl

/-- The key of a printed line is read back, whatever its rest is taken for. -/
theorem parse_print (h : ReadableKey d.key) (number : Nat) :
    Declaration.parse d.print number = .ok { d.reread with line := number } := by
  have hkey : '=' ∉ d.key ++ [' '] := by
    simp only [List.mem_append, List.mem_singleton, not_or]
    exact ⟨fun hm => (h.chars _ hm).1 rfl, by decide⟩
  have hsplit : d.print.splitAt? '=' = some (d.key ++ [' '], d.printRest) := by
    rw [Text.splitAt?_eq_some_iff]
    exact ⟨by simp [Declaration.print], hkey⟩
  have htrim : (d.key ++ [' ']).trim = d.key := by
    simpa using Text.trim_append_blank allBlank_nil allBlank_space h.trim
  rw [Declaration.parse, hsplit]
  simp only
  rw [htrim, if_neg (by simp [h.ne])]
  rfl

theorem head?_print (h : ReadableKey d.key) : d.print.trim.head? = d.key.head? := by
  obtain ⟨c, r, hk⟩ := List.exists_cons_of_ne_nil h.ne
  have hc : Text.isBlank c = false := (Text.trim_eq_self_iff.1 h.trim).1 c (by rw [hk]; rfl)
  rw [Declaration.print, hk]
  exact Text.head?_trim_append allBlank_nil hc

theorem getLast?_ne_return {a v : Text} (hv : v.trim = v) :
    (a ++ ' ' :: v).getLast? ≠ some '\r' := by
  rw [List.getLast?_append, List.getLast?_cons]
  intro h
  have hr : v.getLast?.getD ' ' = '\r' := by simpa using h
  cases hl : v.getLast? with
  | none => simp [hl] at hr
  | some c =>
    obtain rfl : c = '\r' := by simpa [hl] using hr
    have := (Text.trim_eq_self_iff.1 hv).2 _ hl
    revert this
    decide

theorem isLine_print (hk : '\n' ∉ d.key) (hv : '\n' ∉ d.value) (hv' : d.value.trim = d.value)
    (hc : ∀ c, d.comment = some c → '\n' ∉ c ∧ c.trim = c) : Text.IsLine d.print := by
  unfold Declaration.print Declaration.printRest
  cases h : d.comment with
  | none =>
    refine ⟨by simp [hk, hv], ?_⟩
    have := getLast?_ne_return (a := d.key ++ [' ', '=']) hv'
    simpa using this
  | some c =>
    obtain ⟨hline, htrim⟩ := hc c h
    refine ⟨by simp [hk, hv, hline], ?_⟩
    have := getLast?_ne_return (a := d.key ++ ' ' :: '=' :: ' ' :: d.value) htrim
    simpa using this

theorem Declaration.Readable.legible (h : d.Readable) : d.Legible where
  key := h.readableKey
  line := isLine_print (fun hm => (h.key_chars _ hm).2 rfl) (fun hm => (h.value_chars _ hm).2 rfl)
    h.value_trim fun c hc => ⟨h.comment_chars c hc, h.comment_trim c hc⟩

/-! ## Header lines -/

/-- What stands behind the bracket of a header. -/
def Block.printParents (b : Block) : Text :=
  if b.parents ≠ [] then ' ' :: ':' :: ' ' :: [',', ' '].intercalate b.parents else []

/-- The header line of a block. -/
def Block.printHeader (b : Block) : Text := '[' :: b.name ++ ']' :: b.printParents

theorem intercalate_spaced {ps : List Text} (h : ps ≠ []) :
    ' ' :: [',', ' '].intercalate ps = [','].intercalate (ps.map (' ' :: ·)) := by
  induction ps with
  | nil => exact absurd rfl h
  | cons p ps ih =>
    cases ps with
    | nil => simp [List.intercalate]
    | cons q ps =>
      rw [List.intercalate_cons_cons, List.map_cons, List.map_cons, List.intercalate_cons_cons,
        ← List.map_cons, ← ih (by simp)]
      simp

/-- Names that are joined by commas are split again. -/
theorem parentNames_intercalate {ps : List Text} (h : ps ≠ []) (hp : ∀ p ∈ ps, ReadableParent p) :
    parentNames (' ' :: [',', ' '].intercalate ps) = ps := by
  rw [parentNames, intercalate_spaced h, List.splitOn_intercalate ',' ?_ (by simpa using h),
    List.map_map]
  · have hmap : ps.map (Text.trim ∘ (' ' :: ·)) = ps := by
      refine (List.map_congr_left fun p hm => ?_).trans (List.map_id ps)
      simpa using Text.trim_append_blank allBlank_space allBlank_nil (hp p hm).trim
    rw [hmap, List.filter_eq_self]
    exact fun p hm => by simp [(hp p hm).ne]
  · intro l hl
    obtain ⟨p, hm, rfl⟩ := List.mem_map.1 hl
    simp only [List.mem_cons, not_or]
    exact ⟨by decide, fun hc => ((hp p hm).chars _ hc).1 rfl⟩

theorem intercalate_ne_nil {ps : List Text} (h : ps ≠ []) (hp : ∀ p ∈ ps, p ≠ []) (sep : Text) :
    sep.intercalate ps ≠ [] := by
  cases ps with
  | nil => exact absurd rfl h
  | cons p ps =>
    cases ps with
    | nil => simpa using hp
    | cons q ps =>
      rw [List.intercalate_cons_cons]
      simp [hp p (by simp)]

theorem getLast?_intercalate {ps : List Text} {c : Char} (hp : ∀ p ∈ ps, ReadableParent p)
    (sep : Text) (h : (sep.intercalate ps).getLast? = some c) : Text.isBlank c = false := by
  induction ps with
  | nil => cases h
  | cons p ps ih =>
    cases ps with
    | nil =>
      rw [List.intercalate_singleton] at h
      exact (Text.trim_eq_self_iff.1 (hp p (by simp)).trim).2 c h
    | cons q ps =>
      have hne : sep.intercalate (q :: ps) ≠ [] :=
        intercalate_ne_nil (List.cons_ne_nil _ _) (fun r hr => (hp r (by simp [hr])).ne) sep
      rw [List.intercalate_cons_cons, Text.getLast?_append_right hne] at h
      exact ih (fun r hr => hp r (by simp [hr])) h

theorem mem_intercalate {ps : List Text} {sep : Text} {c : Char} (h : c ∈ sep.intercalate ps) :
    c ∈ sep ∨ ∃ p ∈ ps, c ∈ p := by
  induction ps with
  | nil => cases h
  | cons p ps ih =>
    cases ps with
    | nil =>
      rw [List.intercalate_singleton] at h
      exact .inr ⟨p, by simp, h⟩
    | cons q ps =>
      rw [List.intercalate_cons_cons, List.mem_append, List.mem_append] at h
      rcases h with (h | h) | h
      · exact .inr ⟨p, by simp, h⟩
      · exact .inl h
      · exact (ih h).imp_right fun ⟨r, hr, hc⟩ => ⟨r, by simp [hr], hc⟩

theorem getLast?_printHeader (h : b.Titled) {c : Char} (hc : b.printHeader.getLast? = some c) :
    Text.isBlank c = false := by
  rw [Block.printHeader, Block.printParents] at hc
  split at hc
  · next hne =>
    have hi := intercalate_ne_nil hne (fun p hp => (h.parents p hp).ne) [',', ' ']
    have : '[' :: b.name ++ ']' :: ' ' :: ':' :: ' ' :: [',', ' '].intercalate b.parents =
        ('[' :: b.name ++ [']', ' ', ':', ' ']) ++ [',', ' '].intercalate b.parents := by simp
    rw [this, Text.getLast?_append_right hi] at hc
    exact getLast?_intercalate h.parents _ hc
  · rw [Text.getLast?_append_right (List.cons_ne_nil _ _)] at hc
    cases hc
    decide

theorem trim_printHeader (h : b.Titled) : b.printHeader.trim = b.printHeader := by
  refine Text.trim_eq_self_iff.2 ⟨fun c hc => ?_, fun c => getLast?_printHeader h⟩
  cases hc
  decide

/-- The parents of a header are read back. -/
theorem parentsAfter_printParents (h : b.Titled) :
    parentsAfter b.printParents.trim = .ok b.parents := by
  unfold Block.printParents
  split
  · next hne =>
    have ht : Text.trim (' ' :: ':' :: ' ' :: [',', ' '].intercalate b.parents) =
        ':' :: ' ' :: [',', ' '].intercalate b.parents := by
      have hi := intercalate_ne_nil hne (fun p hp => (h.parents p hp).ne) [',', ' ']
      have := Text.trim_eq_of_ends (t := ':' :: ' ' :: [',', ' '].intercalate b.parents)
        allBlank_space allBlank_nil ?_ fun c hc => ?_
      · simpa using this
      · intro c hc
        cases hc
        decide
      · rw [show ':' :: ' ' :: [',', ' '].intercalate b.parents =
          [':', ' '] ++ [',', ' '].intercalate b.parents from rfl,
        Text.getLast?_append_right hi] at hc
        exact getLast?_intercalate h.parents _ hc
    have hmarks : ∀ c ∈ ' ' :: [',', ' '].intercalate b.parents, Note.isMark c = false := by
      intro c hc
      rcases List.mem_cons.1 hc with rfl | hc
      · decide
      · rcases mem_intercalate hc with hc | ⟨p, hp, hc⟩
        · simp only [List.mem_cons, List.not_mem_nil, or_false] at hc
          rcases hc with rfl | rfl <;> decide
        · exact ((h.parents p hp).chars c hc).2.1
    rw [ht, parentsAfter, if_neg (by simp [isComment, Note.isMark]), splitComment_of_none hmarks,
      parentNames_intercalate hne h.parents]
  · next hne =>
    rw [not_not.1 hne]
    rfl

theorem parse_printHeader (h : b.Titled) :
    Header.parse b.printHeader.trim = .ok ⟨b.name, b.parents⟩ := by
  have hs : (b.name ++ ']' :: b.printParents).splitAt? ']' = some (b.name, b.printParents) :=
    Text.splitAt?_eq_some_iff.2 ⟨rfl, fun hm => (h.name_chars _ hm).1 rfl⟩
  rw [Header.parse, trim_printHeader h, trim_printHeader h, Block.printHeader]
  simp only [List.cons_append, Header.parseInner, hs, h.name_trim]
  rw [if_neg (by simp [h.name_ne]), parentsAfter_printParents h]
  rfl

theorem isLine_printHeader (h : b.Titled) : Text.IsLine b.printHeader := by
  refine Text.isLine_of_trim (fun hm => ?_) fun c => getLast?_printHeader h
  rw [Block.printHeader, Block.printParents] at hm
  simp only [List.cons_append, List.mem_cons, List.mem_append] at hm
  rcases hm with hm | hm | hm | hm
  · revert hm
    decide
  · exact (h.name_chars _ hm).2 rfl
  · revert hm
    decide
  · split at hm
    · simp only [List.mem_cons] at hm
      rcases hm with hm | hm | hm | hm
      · revert hm
        decide
      · revert hm
        decide
      · revert hm
        decide
      · rcases mem_intercalate hm with hm | ⟨p, hp, hm⟩
        · revert hm
          decide
        · exact ((h.parents p hp).chars _ hm).2.2 rfl
    · cases hm

/-! ## Texts -/

/-- The lines of a block. -/
def Block.rows (b : Block) : List Text := b.printHeader :: b.declarations.map Declaration.print

/-- The lines of some blocks, with an empty line between them. -/
def rowsOf : List Block → List Text
  | [] => []
  | [b] => b.rows
  | b :: bs => b.rows ++ [] :: rowsOf bs

/-- The text of some blocks. -/
def print (bs : List Block) : Text := Text.ofLines (rowsOf bs)

/-- A block whose lines are read as its header and as property lines with its keys. -/
structure Block.Legible (b : Block) : Prop extends b.Titled where
  declarations : ∀ d ∈ b.declarations, d.Legible

theorem Block.Readable.legible (h : b.Readable) : b.Legible :=
  ⟨h.toTitled, fun d hd => (h.declarations d hd).legible⟩

/-- What is read of the lines of a block. -/
def Block.reread (b : Block) : Block :=
  { b with line := 0, declarations := b.declarations.map Declaration.reread }

theorem Block.reread_of_readable (h : b.Readable) : b.reread = b.unnumbered :=
  congrArg (Block.mk b.name b.parents 0)
    (List.map_congr_left fun d hd => Source.reread_of_readable (h.declarations d hd))

theorem isLine_of_mem_rows (h : b.Legible) {l : Text} (hl : l ∈ b.rows) : Text.IsLine l := by
  rcases List.mem_cons.1 hl with rfl | hl
  · exact isLine_printHeader h.toTitled
  · obtain ⟨d, hd, rfl⟩ := List.mem_map.1 hl
    exact (h.declarations d hd).line

theorem isLine_of_mem_rowsOf {bs : List Block} (h : ∀ b ∈ bs, b.Legible) {l : Text}
    (hl : l ∈ rowsOf bs) : Text.IsLine l := by
  fun_induction rowsOf bs with
  | case1 => cases hl
  | case2 b => exact isLine_of_mem_rows (h b (by simp)) hl
  | case3 b bs _ ih =>
    rcases List.mem_append.1 hl with hl | hl
    · exact isLine_of_mem_rows (h b (by simp)) hl
    · rcases List.mem_cons.1 hl with rfl | hl
      · exact ⟨by simp, by simp⟩
      · exact ih (fun b hb => h b (List.mem_cons_of_mem _ hb)) hl

variable {limits : Limits} {above : List Block} {number : Nat}

theorem addLine_header (h : b.Titled) (hline : b.printHeader.utf8Size ≤ limits.lineLength)
    (hcount : above.length + 1 ≤ limits.sections) :
    Block.addLine limits above number b.printHeader =
      .ok (⟨b.name, b.parents, number, []⟩ :: above) := by
  have hhead : b.printHeader.trim.head? = some '[' := by
    rw [trim_printHeader h]
    rfl
  exact Block.addLine_ok_iff.2 ⟨hline, .header hhead (parse_printHeader h) hcount⟩

theorem addLine_declaration {block : Block} (h : ReadableKey d.key)
    (hline : d.print.utf8Size ≤ limits.lineLength)
    (hcount : block.declarations.length + 1 ≤ limits.properties) :
    Block.addLine limits (block :: above) number d.print =
      .ok ({ block with
        declarations := block.declarations ++ [{ d.reread with line := number }] } :: above) := by
  obtain ⟨c, r, hk⟩ := List.exists_cons_of_ne_nil h.ne
  have hhead : d.print.trim.head? = some c := by rw [head?_print h, hk]; rfl
  obtain ⟨hbracket, hmark⟩ := h.head c (by rw [hk]; rfl)
  obtain ⟨s, hs⟩ := List.head?_eq_some_iff.1 hhead
  have hcontent : hasContent d.print = true := by simp [hasContent, isComment, hs, hmark]
  exact Block.addLine_ok_iff.2 ⟨hline, .declaration hcontent (by rw [hhead]; simpa using hbracket)
    (parse_print h number) hcount⟩

theorem addLine_empty : Block.addLine limits above number [] = .ok above :=
  Block.addLine_ok_iff.2 ⟨Nat.zero_le _, .nothing rfl⟩

/-- Blocks whose text keeps the limits. -/
structure Within (limits : Limits) (bs : List Block) : Prop where
  fileSize : (print bs).utf8Size ≤ limits.fileSize
  lineLength : ∀ b ∈ bs, ∀ l ∈ b.rows, l.utf8Size ≤ limits.lineLength
  sections : bs.length ≤ limits.sections
  properties : ∀ b ∈ bs, b.declarations.length ≤ limits.properties

/-- Limits that a text of this size cannot pass. -/
structure Admits (limits : Limits) (size : Nat) : Prop where
  fileSize : size ≤ limits.fileSize
  lineLength : size ≤ limits.lineLength
  sections : size ≤ limits.sections
  properties : size ≤ limits.properties

variable {rest : List Text} {bs : List Block}

/-- Printed declarations are read one by one into the block above them. -/
theorem addLines_declarations {block : Block} {ds : List Declaration} (h : ∀ d ∈ ds, d.Legible)
    (hline : ∀ d ∈ ds, d.print.utf8Size ≤ limits.lineLength)
    (hcount : block.declarations.length + ds.length ≤ limits.properties) :
    ∃ ds', ds'.map Declaration.unnumbered = ds.map Declaration.reread ∧
      Block.addLines limits (block :: above) number (ds.map Declaration.print ++ rest) =
        Block.addLines limits ({ block with declarations := block.declarations ++ ds' } :: above)
          (number + ds.length) rest := by
  induction ds generalizing block number with
  | nil => exact ⟨[], rfl, by simp⟩
  | cons d ds ih =>
    rw [List.length_cons] at hcount
    have hcount' : (block.declarations ++ [{ d.reread with line := number }]).length + ds.length ≤
        limits.properties := by
      rw [List.length_append, List.length_singleton]
      omega
    obtain ⟨ds', hds, he⟩ := @ih (number + 1)
      { block with declarations := block.declarations ++ [{ d.reread with line := number }] }
      (fun x hx => h x (by simp [hx])) (fun x hx => hline x (by simp [hx])) hcount'
    refine ⟨{ d.reread with line := number } :: ds', ?_, ?_⟩
    · rw [List.map_cons, List.map_cons, hds]
      rfl
    · rw [List.map_cons, List.cons_append, Block.addLines,
        addLine_declaration (h d (by simp)).key (hline d (by simp)) (by omega)]
      simp only
      rw [he, List.length_cons, Nat.add_assoc, Nat.add_comm 1]
      simp

/-- The rows of a printed block are read as one block. -/
theorem addLines_rows (h : b.Legible) (hline : ∀ l ∈ b.rows, l.utf8Size ≤ limits.lineLength)
    (hsections : above.length + 1 ≤ limits.sections)
    (hproperties : b.declarations.length ≤ limits.properties) :
    ∃ b', b'.unnumbered = b.reread ∧
      Block.addLines limits above number (b.rows ++ rest) =
        Block.addLines limits (b' :: above) (number + b.rows.length) rest := by
  obtain ⟨ds', hds, he⟩ := @addLines_declarations limits above (number + 1) rest
    ⟨b.name, b.parents, number, []⟩ b.declarations h.declarations
    (fun d hd => hline _ (List.mem_cons_of_mem _ (List.mem_map_of_mem hd)))
    (by rwa [List.length_nil, Nat.zero_add])
  refine ⟨⟨b.name, b.parents, number, ds'⟩, ?_, ?_⟩
  · rw [Block.unnumbered, Block.reread, hds]
  · rw [Block.rows, List.cons_append, Block.addLines,
      addLine_header h.toTitled (hline _ (List.mem_cons_self ..)) hsections]
    simp only
    rw [he, List.length_cons, List.length_map, Nat.add_assoc, Nat.add_comm 1]
    rfl

/-- The rows of printed blocks are read as these blocks; the empty lines between them add nothing.
-/
theorem addLines_rowsOf (h : ∀ b ∈ bs, b.Legible)
    (hline : ∀ b ∈ bs, ∀ l ∈ b.rows, l.utf8Size ≤ limits.lineLength)
    (hsections : above.length + bs.length ≤ limits.sections)
    (hproperties : ∀ b ∈ bs, b.declarations.length ≤ limits.properties) :
    ∃ bs' : List Block, bs'.map Block.unnumbered = bs.map Block.reread ∧
      Block.addLines limits above number (rowsOf bs) = .ok (bs'.reverse ++ above) := by
  fun_induction rowsOf bs generalizing above number with
  | case1 => exact ⟨[], rfl, rfl⟩
  | case2 b =>
    obtain ⟨b', hb, he⟩ := @addLines_rows b limits above number [] (h b (by simp))
      (hline b (by simp)) hsections (hproperties b (by simp))
    rw [List.append_nil] at he
    exact ⟨[b'], by simp [hb], he⟩
  | case3 b bs hne ih =>
    rw [List.length_cons] at hsections
    obtain ⟨b', hb, he⟩ := @addLines_rows b limits above number ([] :: rowsOf bs)
      (h b (by simp)) (hline b (by simp)) (by omega) (hproperties b (by simp))
    obtain ⟨bs', hbs, he'⟩ := @ih (b' :: above) (number + b.rows.length + 1)
      (fun x hx => h x (List.mem_cons_of_mem _ hx))
      (fun x hx => hline x (List.mem_cons_of_mem _ hx))
      (by rw [List.length_cons]; omega)
      (fun x hx => hproperties x (List.mem_cons_of_mem _ hx))
    refine ⟨b' :: bs', by rw [List.map_cons, List.map_cons, hb, hbs], ?_⟩
    rw [he, Block.addLines, addLine_empty]
    simp only
    rw [he', List.reverse_cons, List.append_assoc, List.singleton_append]

theorem dropMark_print (bs : List Block) : Block.dropMark (print bs) = print bs := by
  unfold print
  fun_cases rowsOf bs with
  | case1 => rfl
  | case2 b => rfl
  | case3 b bs hne => rfl

/-- Printed blocks that keep the limits are read line by line. -/
theorem ofText_print_within (hl : Within limits bs) (h : ∀ b ∈ bs, b.Legible) :
    ∃ bs', Block.ofText (print bs) limits = .ok bs' ∧
      bs'.map Block.unnumbered = bs.map Block.reread := by
  obtain ⟨bs', hbs, he⟩ := @addLines_rowsOf limits [] 1 bs h hl.lineLength
    (by rw [List.length_nil, Nat.zero_add]; exact hl.sections) hl.properties
  refine ⟨bs', Block.ofText_ok_iff.2 ⟨hl.fileSize, ?_⟩, hbs⟩
  rw [dropMark_print, print, Text.lines_ofLines fun l => isLine_of_mem_rowsOf h, he,
    List.append_nil]

theorem rows_sublist_rowsOf (hb : b ∈ bs) : b.rows.Sublist (rowsOf bs) := by
  fun_induction rowsOf bs with
  | case1 => cases hb
  | case2 c =>
    obtain rfl := List.mem_singleton.1 hb
    exact List.Sublist.refl _
  | case3 c bs _ ih =>
    rcases List.mem_cons.1 hb with rfl | hb
    · exact List.sublist_append_left ..
    · exact ((ih hb).cons []).trans (List.sublist_append_right ..)

theorem length_le_rowsOf (bs : List Block) : bs.length ≤ (rowsOf bs).length := by
  fun_induction rowsOf bs with
  | case1 => exact Nat.le_refl 0
  | case2 b => exact Nat.succ_le_succ (Nat.zero_le _)
  | case3 b bs _ ih =>
    rw [List.length_append, List.length_cons, List.length_cons]
    omega

/-- Limits that admit the size of a text are kept by it. -/
theorem Admits.within (hl : Admits limits (print bs).utf8Size) : Within limits bs := by
  have hcount : (rowsOf bs).length ≤ (print bs).utf8Size := Text.length_le_utf8Size_ofLines _
  refine ⟨hl.fileSize, fun b hb l hm => ?_, ?_, fun b hb => ?_⟩
  · exact (Text.utf8Size_le_ofLines ((rows_sublist_rowsOf hb).subset hm)).trans hl.lineLength
  · exact ((length_le_rowsOf bs).trans hcount).trans hl.sections
  · have hrows := (rows_sublist_rowsOf hb).length_le
    rw [Block.rows, List.length_cons, List.length_map] at hrows
    exact (by omega : _ ≤ (print bs).utf8Size).trans hl.properties

/-- Reading printed blocks gives the same blocks, with other line numbers. -/
theorem ofText_print (hl : Admits limits (print bs).utf8Size) (h : ∀ b ∈ bs, b.Readable) :
    ∃ bs', Block.ofText (print bs) limits = .ok bs' ∧
      bs'.map Block.unnumbered = bs.map Block.unnumbered := by
  obtain ⟨bs', hbs, hread⟩ := ofText_print_within hl.within fun b hb => (h b hb).legible
  refine ⟨bs', hbs, hread.trans (List.map_congr_left fun b hb => ?_)⟩
  exact Block.reread_of_readable (h b hb)

end Source

end Lineage
