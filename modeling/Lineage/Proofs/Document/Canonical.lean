import Lineage.Proofs.Construction.Unnumbered
import Lineage.Proofs.Document.Results
import Lineage.Proofs.Property.Written
import Lineage.Proofs.Source.Printing
/-!
# Canonical texts

The canonical text of some blocks is their lines, one below the other. The blocks of a text have a
canonical text which is split into the same blocks (`ofText_canonical`). Printing spaces out the
parts of a line, but the text at most doubles by that (`utf8Size_canonical_le`). A text and the
canonical text of its blocks stand for the same document (`parse_canonical`): both have the same
sections, or both are refused for the same reason, at lines of their own.
-/
namespace Lineage

namespace Text

/-! ## Sizes -/

theorem utf8Size_le_of_sublist {s t : Text} (h : s.Sublist t) : utf8Size s ≤ utf8Size t := by
  induction h with
  | slnil => exact Nat.le_refl 0
  | cons c _ ih =>
    rw [utf8Size_cons]
    omega
  | cons_cons c _ ih =>
    rw [utf8Size_cons, utf8Size_cons]
    omega

theorem utf8Size_trim_le (t : Text) : utf8Size t.trim ≤ utf8Size t :=
  utf8Size_le_of_sublist (trim_sublist t)

theorem utf8Size_pos {t : Text} (h : t ≠ []) : 0 < utf8Size t := by
  obtain ⟨c, r, rfl⟩ := List.exists_cons_of_ne_nil h
  have := c.utf8Size_pos
  rw [utf8Size_cons]
  omega

@[simp] theorem utf8Size_reverse (t : Text) : utf8Size t.reverse = utf8Size t := by
  induction t with
  | nil => rfl
  | cons c t ih =>
    rw [List.reverse_cons, utf8Size_append, ih, utf8Size_cons, utf8Size_cons, utf8Size_nil]
    omega

@[simp] theorem utf8Size_ofLines_cons (l : Text) (ls : List Text) :
    utf8Size (ofLines (l :: ls)) = utf8Size l + 1 + utf8Size (ofLines ls) := by
  simp only [ofLines, List.flatMap_cons, utf8Size_append]
  rfl

theorem dropReturn_sublist (l : Text) : (dropReturn l).Sublist l := by
  unfold dropReturn
  split
  · exact List.sublist_cons_self _ _
  · exact List.Sublist.refl _

/-- The lines of a text take its size, and one more if it ends within a line. -/
theorem utf8Size_ofLines_linesFrom (cur t : Text) :
    utf8Size (ofLines (linesFrom cur t)) ≤ utf8Size cur + utf8Size t + 1 := by
  fun_induction linesFrom cur t with
  | case1 cur hcur => exact Nat.zero_le _
  | case2 cur hcur =>
    rw [utf8Size_ofLines_cons, utf8Size_reverse]
    exact Nat.le_refl _
  | case3 cur r ih =>
    have hcur := utf8Size_le_of_sublist (dropReturn_sublist cur)
    have hnewline : Char.utf8Size '\n' = 1 := rfl
    rw [utf8Size_nil] at ih
    rw [utf8Size_ofLines_cons, utf8Size_reverse, utf8Size_cons]
    omega
  | case4 cur c r hc ih =>
    rw [utf8Size_cons] at ih ⊢
    omega

theorem utf8Size_ofLines_lines (t : Text) : utf8Size (ofLines (lines t)) ≤ utf8Size t + 1 := by
  have := utf8Size_ofLines_linesFrom [] t
  rwa [utf8Size_nil, Nat.zero_add] at this

theorem utf8Size_intercalate_comma {ps : List Text} (h : ps ≠ []) :
    utf8Size ([','].intercalate ps) + 1 = utf8Size (ofLines ps) := by
  induction ps with
  | nil => exact absurd rfl h
  | cons p ps ih =>
    cases ps with
    | nil =>
      rw [List.intercalate_singleton, utf8Size_ofLines_cons]
      rfl
    | cons q ps =>
      have hcomma : utf8Size [','] = 1 := rfl
      rw [List.intercalate_cons_cons, utf8Size_append, utf8Size_append, utf8Size_ofLines_cons,
        ← ih (by simp)]
      omega

theorem utf8Size_intercalate_spaced {ps : List Text} (h : ps ≠ []) :
    utf8Size ([',', ' '].intercalate ps) + 2 ≤ 2 * utf8Size (ofLines ps) := by
  induction ps with
  | nil => exact absurd rfl h
  | cons p ps ih =>
    cases ps with
    | nil =>
      rw [List.intercalate_singleton, utf8Size_ofLines_cons]
      omega
    | cons q ps =>
      have hcomma : utf8Size [',', ' '] = 2 := rfl
      have := ih (by simp)
      rw [List.intercalate_cons_cons, utf8Size_append, utf8Size_append, utf8Size_ofLines_cons]
      omega

end Text

namespace Source

variable {line t : Text} {limits : Limits} {above bs : List Block} {number : Nat} {b : Block}
  {d : Declaration} {hd : Header}

/-! ## Sizes of lines -/

theorem utf8Size_ofLines_parentNames (t : Text) :
    (Text.ofLines (parentNames t)).utf8Size ≤ t.utf8Size + 1 := by
  have hkept (ls : List Text) :
      (Text.ofLines ((ls.map Text.trim).filter (! ·.isEmpty))).utf8Size ≤
        (Text.ofLines ls).utf8Size := by
    induction ls with
    | nil => exact Nat.le_refl 0
    | cons l ls ih =>
      have := Text.utf8Size_trim_le l
      rw [List.map_cons, List.filter_cons, Text.utf8Size_ofLines_cons]
      split
      · rw [Text.utf8Size_ofLines_cons]
        omega
      · omega
  calc (Text.ofLines (parentNames t)).utf8Size
      ≤ (Text.ofLines (t.splitOn ',')).utf8Size := hkept _
    _ = Text.utf8Size ([','].intercalate (t.splitOn ',')) + 1 :=
        (Text.utf8Size_intercalate_comma (List.splitOn_ne_nil ',' t)).symm
    _ = t.utf8Size + 1 := by rw [List.intercalate_splitOn]

theorem utf8Size_splitComment (t : Text) :
    (splitComment t).1.utf8Size + ((splitComment t).2.getD []).utf8Size = t.utf8Size := by
  have h := congrArg Text.utf8Size (@List.takeWhile_append_dropWhile _ (! Note.isMark ·) t)
  rw [Text.utf8Size_append] at h
  rw [← h, splitComment]
  simp only
  split
  · next hrest =>
    rw [List.isEmpty_iff.1 hrest]
    rfl
  · rfl

/-- The parents behind a header take at most twice the text that names them. -/
theorem utf8Size_printParents_le {rest : Text} (h : parentsAfter rest = .ok b.parents) :
    b.printParents.utf8Size ≤ 2 * rest.utf8Size + 1 := by
  unfold Block.printParents
  split
  · next hne =>
    unfold parentsAfter at h
    split at h
    · exact absurd (Except.ok.inj h).symm hne
    · split at h
      · next list _ =>
        have hparents : b.parents = parentNames (splitComment list).1 := (Except.ok.inj h).symm
        have hspaced := Text.utf8Size_intercalate_spaced hne
        have hnames := utf8Size_ofLines_parentNames (splitComment list).1
        have hlist := utf8Size_splitComment list
        rw [← hparents] at hnames
        have hcolon : Char.utf8Size ':' = 1 := rfl
        have hspace : Char.utf8Size ' ' = 1 := rfl
        simp only [Text.utf8Size_cons, hcolon, hspace]
        omega
      · cases h
  · exact Nat.zero_le _

/-- So does printing a header anew. -/
theorem utf8Size_printHeader_le (h : Header.parse line = .ok hd) :
    (Block.printHeader ⟨hd.name, hd.parents, number, []⟩).utf8Size ≤ 2 * line.utf8Size := by
  have hline := Text.utf8Size_trim_le line
  unfold Header.parse at h
  split at h
  · next inner hinner =>
    rw [hinner] at hline
    unfold Header.parseInner at h
    split at h
    · cases h
    · next name rest hs =>
      obtain ⟨rfl, -⟩ := Text.splitAt?_eq_some_iff.1 hs
      split at h
      · cases h
      · cases hps : parentsAfter rest.trim with
        | error c => simp [hps, Except.map] at h
        | ok ps =>
          simp only [hps, Except.map, Except.ok.injEq] at h
          subst h
          have hparents : (Block.printParents ⟨name.trim, ps, number, []⟩).utf8Size ≤
            2 * rest.trim.utf8Size + 1 := utf8Size_printParents_le hps
          have hname := Text.utf8Size_trim_le name
          have hrest := Text.utf8Size_trim_le rest
          have hopen : Char.utf8Size '[' = 1 := rfl
          have hclose : Char.utf8Size ']' = 1 := rfl
          rw [Block.printHeader]
          simp only [List.cons_append, Text.utf8Size_cons, Text.utf8Size_append, hopen, hclose]
            at hline ⊢
          omega
  · cases h

/-- Printing a line anew at most doubles it. -/
theorem utf8Size_print_le (h : Declaration.parse line number = .ok d) :
    d.print.utf8Size ≤ 2 * line.utf8Size := by
  unfold Declaration.parse at h
  split at h
  · cases h
  · next key rest hs =>
    obtain ⟨rfl, -⟩ := Text.splitAt?_eq_some_iff.1 hs
    split at h
    · cases h
    · next hne =>
      cases h
      have hpos : 0 < key.trim.utf8Size := Text.utf8Size_pos (by simpa using hne)
      have hkey := Text.utf8Size_trim_le key
      have hvalue := Text.utf8Size_trim_le (splitComment rest).1
      have hrest := utf8Size_splitComment rest
      have hequals : Char.utf8Size '=' = 1 := rfl
      have hspace : Char.utf8Size ' ' = 1 := rfl
      cases hc : (splitComment rest).2 with
      | none =>
        simp only [hc, Option.getD_none, Option.map_none, Declaration.print, Declaration.printRest,
          Text.utf8Size_append, Text.utf8Size_cons, Text.utf8Size_nil, hequals, hspace] at hrest ⊢
        omega
      | some c =>
        have hcomment := Text.utf8Size_trim_le c
        have hcpos : 0 < c.utf8Size := by
          refine Text.utf8Size_pos ?_
          simp only [splitComment, Option.ite_none_left_eq_some, Option.some.injEq] at hc
          obtain ⟨hne, rfl⟩ := hc
          simpa using hne
        simp only [hc, Option.getD_some, Option.map_some, Declaration.print, Declaration.printRest,
          Text.utf8Size_append, Text.utf8Size_cons, hequals, hspace] at hrest ⊢
        omega

/-! ## Canonical texts -/

/-- The text of some blocks, one below the other. -/
def canonical (bs : List Block) : Text := Text.ofLines (bs.flatMap Block.rows)

theorem canonical_cons (b : Block) (bs : List Block) :
    canonical (b :: bs) = Text.ofLines b.rows ++ canonical bs := by
  rw [canonical, List.flatMap_cons, Text.ofLines_append, ← canonical]

theorem canonical_append (bs bs' : List Block) :
    canonical (bs ++ bs') = canonical bs ++ canonical bs' := by
  rw [canonical, List.flatMap_append, Text.ofLines_append, ← canonical, ← canonical]

theorem utf8Size_canonical_reverse (bs : List Block) :
    (canonical bs.reverse).utf8Size = (canonical bs).utf8Size := by
  induction bs with
  | nil => rfl
  | cons b bs ih =>
    rw [List.reverse_cons, canonical_append, canonical_cons, canonical_cons, Text.utf8Size_append,
      Text.utf8Size_append, Text.utf8Size_append, ih]
    simp [canonical, Text.ofLines, Nat.add_comm]

/-- A line adds at most its double size to the canonical text. -/
theorem utf8Size_canonical_adds (h : Block.Adds limits number line above bs) :
    (canonical bs).utf8Size ≤ (canonical above).utf8Size + 2 * line.utf8Size + 1 := by
  have hnil : (Text.ofLines []).utf8Size = 0 := rfl
  cases h with
  | nothing => omega
  | header _ hparse =>
    have hheader := @utf8Size_printHeader_le _ number _ hparse
    have hline := Text.utf8Size_trim_le line
    rw [canonical_cons, Text.utf8Size_append, Block.rows, Text.utf8Size_ofLines_cons,
      List.map_nil]
    omega
  | @declaration block _ d _ _ hparse =>
    have hprint := utf8Size_print_le hparse
    have hrows : Block.rows { block with declarations := block.declarations ++ [d] } =
        block.rows ++ [d.print] := by
      simp only [Block.rows, List.map_append, List.map_singleton, List.cons_append]
      rfl
    rw [canonical_cons, canonical_cons, hrows, Text.ofLines_append, Text.utf8Size_append,
      Text.utf8Size_append, Text.utf8Size_append, Text.utf8Size_ofLines_cons]
    omega

/-- The canonical text grows with each line by at most twice the line. -/
theorem utf8Size_canonical_addLines {lines : List Text}
    (h : Block.addLines limits above number lines = .ok bs) :
    (canonical bs).utf8Size + lines.length ≤
      (canonical above).utf8Size + 2 * (Text.ofLines lines).utf8Size := by
  induction lines generalizing above number with
  | nil =>
    cases h
    exact Nat.le_add_right _ _
  | cons line lines ih =>
    obtain ⟨mid, hline, h⟩ := Block.addLines_cons_ok_iff.1 h
    have hstep := utf8Size_canonical_adds (Block.addLine_ok_iff.1 hline).2
    have := ih h
    rw [Text.utf8Size_ofLines_cons, List.length_cons]
    omega

theorem utf8Size_dropMark_le (t : Text) : (Block.dropMark t).utf8Size ≤ t.utf8Size := by
  unfold Block.dropMark
  split
  · rw [Text.utf8Size_cons]
    omega
  · exact Nat.le_refl _

/-- The canonical text is at most twice as long. -/
theorem utf8Size_canonical_le (h : Block.ofText t limits = .ok bs) :
    (canonical bs).utf8Size ≤ 2 * t.utf8Size + 1 := by
  have hrun := (Block.ofText_ok_iff.1 h).2
  have hgrown := utf8Size_canonical_addLines hrun
  rw [utf8Size_canonical_reverse] at hgrown
  have hlines := Text.utf8Size_ofLines_lines (Block.dropMark t)
  have hmark := utf8Size_dropMark_le t
  have hnil : (canonical []).utf8Size = 0 := rfl
  cases hl : Text.lines (Block.dropMark t) with
  | nil =>
    rw [hl] at hgrown
    have : (Text.ofLines []).utf8Size = 0 := rfl
    omega
  | cons l ls =>
    rw [hl, List.length_cons] at hgrown
    rw [hl] at hlines
    omega

/-! ## Reading canonical texts -/

/-- Printed blocks are read back without empty lines between them. -/
theorem addLines_flatMap_rows (h : ∀ b ∈ bs, b.Readable)
    (hline : ∀ b ∈ bs, ∀ l ∈ b.rows, l.utf8Size ≤ limits.lineLength)
    (hsections : above.length + bs.length ≤ limits.sections)
    (hproperties : ∀ b ∈ bs, b.declarations.length ≤ limits.properties) :
    ∃ bs' : List Block, bs'.map Block.unnumbered = bs.map Block.unnumbered ∧
      Block.addLines limits above number (bs.flatMap Block.rows) = .ok (bs'.reverse ++ above) := by
  induction bs generalizing above number with
  | nil => exact ⟨[], rfl, rfl⟩
  | cons b bs ih =>
    rw [List.length_cons] at hsections
    obtain ⟨b', hb, he⟩ := @addLines_rows b limits above number (bs.flatMap Block.rows)
      (h b (by simp)).legible (hline b (by simp)) (by omega) (hproperties b (by simp))
    rw [Block.reread_of_readable (h b (by simp))] at hb
    obtain ⟨bs', hbs, he'⟩ := @ih (b' :: above) (number + b.rows.length)
      (fun x hx => h x (List.mem_cons_of_mem _ hx))
      (fun x hx => hline x (List.mem_cons_of_mem _ hx))
      (by rw [List.length_cons]; omega)
      (fun x hx => hproperties x (List.mem_cons_of_mem _ hx))
    refine ⟨b' :: bs', by rw [List.map_cons, List.map_cons, hb, hbs], ?_⟩
    rw [List.flatMap_cons, he, he', List.reverse_cons, List.append_assoc, List.singleton_append]

theorem length_le_flatMap_rows (bs : List Block) : bs.length ≤ (bs.flatMap Block.rows).length := by
  induction bs with
  | nil => exact Nat.le_refl 0
  | cons b bs ih =>
    rw [List.flatMap_cons, List.length_append, Block.rows, List.length_cons, List.length_cons]
    omega

theorem dropMark_canonical (bs : List Block) : Block.dropMark (canonical bs) = canonical bs := by
  cases bs <;> rfl

/-- The canonical text of readable blocks is split into the same blocks, with other line
numbers. -/
theorem ofText_canonical (hl : Admits limits (canonical bs).utf8Size)
    (h : ∀ b ∈ bs, b.Readable) : ∃ bs', Block.ofText (canonical bs) limits = .ok bs' ∧
      bs'.map Block.unnumbered = bs.map Block.unnumbered := by
  have hcount : (bs.flatMap Block.rows).length ≤ (canonical bs).utf8Size :=
    Text.length_le_utf8Size_ofLines _
  have hrow {b : Block} (hb : b ∈ bs) {l : Text} (hm : l ∈ b.rows) : l ∈ bs.flatMap Block.rows :=
    List.mem_flatMap.2 ⟨b, hb, hm⟩
  obtain ⟨bs', hbs, he⟩ := @addLines_flatMap_rows limits [] bs 1 h
    (fun b hb l hm => (Text.utf8Size_le_ofLines (hrow hb hm)).trans hl.lineLength)
    (by
      have := (length_le_flatMap_rows bs).trans (hcount.trans hl.sections)
      rwa [List.length_nil, Nat.zero_add])
    (fun b hb => by
      have hrows : b.rows.length ≤ (bs.flatMap Block.rows).length :=
        (List.sublist_flatten_of_mem (List.mem_map_of_mem hb)).length_le
      rw [Block.rows, List.length_cons, List.length_map] at hrows
      exact (by omega : _ ≤ (canonical bs).utf8Size).trans hl.properties)
  refine ⟨bs', Block.ofText_ok_iff.2 ⟨hl.fileSize, ?_⟩, hbs⟩
  have hlines : Text.lines (canonical bs) = bs.flatMap Block.rows := by
    refine Text.lines_ofLines fun l hm => ?_
    obtain ⟨b, hb, hm⟩ := List.mem_flatMap.1 hm
    exact isLine_of_mem_rows (h b hb).legible hm
  rw [dropMark_canonical, hlines, he, List.append_nil]

end Source

end Lineage

/-! ## Documents -/

namespace Lineage.Document

open Construction Source

variable {t : Text} {bs : List Block}

/-- The blocks of a text are split off its canonical text again, other line numbers apart. Hence
both texts are read as the same document, or both fail with the same cause. -/
theorem parse_canonical (ht : t.Fits) (h : Block.ofText t .unlimited = .ok bs) :
    (∃ bs', Block.ofText (canonical bs) .unlimited = .ok bs' ∧
      bs'.map Block.unnumbered = bs.map Block.unnumbered) ∧
    ∀ overwrite, (∃ d, parse t ⟨.unlimited, overwrite⟩ = .ok d ∧
        parse (canonical bs) ⟨.unlimited, overwrite⟩ = .ok d) ∨
      ∃ f f', parse t ⟨.unlimited, overwrite⟩ = .error f ∧
        parse (canonical bs) ⟨.unlimited, overwrite⟩ = .error f' ∧
        f.unnumbered = f'.unnumbered ∧ f.kind = f'.kind ∧ f.cause.message = f'.cause.message := by
  have hsize : (canonical bs).utf8Size ≤ Limits.greatest := by
    have hgreatest : 2 * (Limits.greatest / 2) + 1 = Limits.greatest := rfl
    have hgrown := utf8Size_canonical_le h
    unfold Text.Fits at ht
    omega
  obtain ⟨bs', h', hbs⟩ := ofText_canonical (Limits.admits_unlimited hsize) (readable_of_ofText h)
  refine ⟨⟨bs', h', hbs⟩, fun overwrite => ?_⟩
  rw [parse_of_blocks (o := ⟨.unlimited, overwrite⟩) h,
    parse_of_blocks (o := ⟨.unlimited, overwrite⟩) h']
  rcases mapError_eq_iff.1 (sectionsOf_unnumbered hbs) with ⟨f', f, hf', hf, he⟩ | ⟨ss, hs', hs⟩
  · have hcause : f.cause = f'.cause := Fault.cause_eq_of_unnumbered he.symm
    rw [hf, hf']
    exact .inr ⟨f, f', rfl, rfl, he.symm, congrArg Cause.kind hcause,
      congrArg Cause.message hcause⟩
  · rw [hs, hs']
    exact .inl ⟨_, rfl, rfl⟩

/-- Uneven lines, and a parent that stands behind its heir. -/
def unevenLines : Text :=
  "\uFEFF; units\n[ B ]:,A , #heir\r\n y=$A.x;1 # 2\n\n  [A] # a\nx =\t(1+2)".toList

theorem parse_canonical_unevenLines : ∃ bs, unevenLines.Fits ∧
    Block.ofText unevenLines .unlimited = .ok bs ∧
    canonical bs = "[B] : A\ny = $A.x ;1 # 2\n[A]\nx = (1+2)\n".toList ∧
    ∃ d, parse unevenLines ⟨.unlimited, true⟩ = .ok d ∧
      parse (canonical bs) ⟨.unlimited, true⟩ = .ok d := by
  have hfits : unevenLines.Fits := by
    unfold Text.Fits
    decide +kernel
  have hblocks : Block.ofText unevenLines .unlimited = .ok
      [⟨['B'], [['A']], 2, [⟨['y'], "$A.x".toList, some ";1 # 2".toList, 3⟩]⟩,
        ⟨['A'], [], 5, [⟨['x'], "(1+2)".toList, none, 6⟩]⟩] := by rfl
  obtain ⟨d, hd⟩ := exists_of_isOk (x := parse unevenLines ⟨.unlimited, true⟩) (by decide +kernel)
  refine ⟨_, hfits, hblocks, by rfl, ?_⟩
  rcases (parse_canonical hfits hblocks).2 true with hsame | ⟨f, _, hf, -⟩
  · exact hsame
  · rw [hd] at hf
    cases hf

end Lineage.Document
