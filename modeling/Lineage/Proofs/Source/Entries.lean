import Lineage.Proofs.Lists
import Lineage.Proofs.Source.Added
/-!
# Lines and their entries

The header of a block and its declarations are its entries. The entries of a text are its lines that
are neither blank nor comments, each of them once and in their order (`entries_of_lines`). How the
lines end makes no difference.
-/
namespace Lineage

namespace Text

/-! ## Carriage returns -/

/-- The text with a carriage return before each newline. -/
def withReturns (t : Text) : Text := t.flatMap fun c => if c = '\n' then ['\r', '\n'] else [c]

theorem withReturns_newline (t : Text) : withReturns ('\n' :: t) = '\r' :: '\n' :: withReturns t :=
  rfl

theorem withReturns_cons {c : Char} (hc : c ≠ '\n') (t : Text) :
    withReturns (c :: t) = c :: withReturns t := by
  rw [withReturns, List.flatMap_cons, if_neg hc, List.singleton_append, ← withReturns]

/-- Carriage returns before newlines belong to the line ends. -/
theorem linesFrom_withReturns {cur t : Text} (hcur : '\r' ∉ cur) (ht : '\r' ∉ t) :
    linesFrom cur (withReturns t) = linesFrom cur t := by
  induction t generalizing cur with
  | nil => rfl
  | cons c t ih =>
    simp only [List.mem_cons, not_or] at ht
    by_cases hc : c = '\n'
    · subst hc
      have hreturn : dropReturn cur = cur := by
        unfold dropReturn
        split
        · exact absurd (List.mem_cons_self ..) hcur
        · rfl
      rw [withReturns_newline, linesFrom.eq_3 _ _ _ (by decide), linesFrom, linesFrom, hreturn,
        ih (List.not_mem_nil) ht.2]
      rfl
    · rw [withReturns_cons hc, linesFrom.eq_3 _ _ _ (by simpa using hc),
        linesFrom.eq_3 _ _ _ (by simpa using hc), ih (by simp [hcur, ht.1]) ht.2]

theorem utf8Size_withReturns_le (t : Text) : utf8Size (withReturns t) ≤ 2 * utf8Size t := by
  induction t with
  | nil => exact Nat.le_refl 0
  | cons c t ih =>
    by_cases hc : c = '\n'
    · have hreturn : Char.utf8Size '\r' = 1 := rfl
      have hnewline : Char.utf8Size '\n' = 1 := rfl
      rw [hc, withReturns_newline, utf8Size_cons, utf8Size_cons, utf8Size_cons]
      omega
    · rw [withReturns_cons hc, utf8Size_cons, utf8Size_cons]
      omega

end Text

namespace Source

theorem Block.dropMark_withReturns (t : Text) :
    dropMark t.withReturns = (dropMark t).withReturns := by
  fun_cases dropMark t with
  | case1 t => rfl
  | case2 t hmark =>
    cases t with
    | nil => rfl
    | cons c t =>
      by_cases hc : c = '\n'
      · subst hc
        rfl
      · rw [Text.withReturns_cons hc]
        unfold dropMark
        split
        · next he => exact absurd (congrArg (· :: t) (List.cons.inj he).1) (hmark t)
        · rfl

theorem Block.ofText_withReturns {t : Text} (ht : '\r' ∉ t) (hfits : t.Fits) :
    ofText t.withReturns .unlimited = ofText t .unlimited := by
  have hhalf : 2 * (Limits.greatest / 2) ≤ Limits.greatest := Nat.mul_div_le _ 2
  have hsize := t.utf8Size_withReturns_le
  unfold Text.Fits at hfits
  have hfile : Limits.unlimited.checkFileSize t.utf8Size = .ok () :=
    Limits.checkFileSize_ok_iff.2 (show t.utf8Size ≤ Limits.greatest by omega)
  have hfile' : Limits.unlimited.checkFileSize t.withReturns.utf8Size = .ok () :=
    Limits.checkFileSize_ok_iff.2 (show t.withReturns.utf8Size ≤ Limits.greatest by omega)
  have hmark : '\r' ∉ dropMark t := by
    unfold dropMark
    split
    · exact fun hm => ht (List.mem_cons_of_mem _ hm)
    · exact ht
  have hlines : Text.lines (dropMark t.withReturns) = Text.lines (dropMark t) := by
    rw [dropMark_withReturns]
    exact Text.linesFrom_withReturns List.not_mem_nil hmark
  rw [ofText, ofText, hfile, hfile', hlines]

/-! ## Entries -/

/-- What a line of a block says, and its number. -/
inductive Entry where
  | header (h : Header) (line : Nat)
  | declaration (d : Declaration)
deriving DecidableEq, Repr

namespace Entry

/-- The number of the line. -/
def line : Entry → Nat
  | header _ n => n
  | declaration d => d.line

/-- Whether the line is the header of its block. -/
def isHeader : Entry → Bool
  | header .. => true
  | declaration _ => false

/-- The entry is what a line says, which is given with its number. -/
structure ReadFrom (e : Entry) (l : Text × Nat) : Prop where
  line : e.line = l.2
  isHeader : e.isHeader = true ↔ l.1.trim.head? = some '['
  header : ∀ h n, e = header h n → Header.parse l.1.trim = .ok h
  declaration : ∀ d, e = declaration d → Declaration.parse l.1 l.2 = .ok d

end Entry

/-- The entries of a block: its header, and its declarations. -/
def Block.entries (b : Block) : List Entry :=
  .header ⟨b.name, b.parents⟩ b.line :: b.declarations.map .declaration

/-- The lines of a text that are neither blank nor comments, with their numbers. -/
def contentLines (t : Text) : List (Text × Nat) :=
  ((Text.lines (Block.dropMark t)).zipIdx 1).filter (hasContent ·.1)

variable {limits : Limits} {number : Nat} {line : Text} {above bs : List Block}

theorem line_of_parse {d : Declaration} (h : Declaration.parse line number = .ok d) :
    d.line = number := by
  unfold Declaration.parse at h
  split at h
  · cases h
  · split at h
    · cases h
    · cases h
      rfl

/-- A line adds the entry that it says, if it says something. -/
theorem entries_adds (h : Block.Adds limits number line above bs) :
    ∃ es, bs.reverse.flatMap Block.entries = above.reverse.flatMap Block.entries ++ es ∧
      List.Forall₂ Entry.ReadFrom es ([(line, number)].filter (hasContent ·.1)) := by
  cases h with
  | nothing hcontent => exact ⟨[], by simp, by simp [hcontent]⟩
  | @header _ h hhead hparse =>
    refine ⟨[.header h number], by simp [Block.entries], ?_⟩
    rw [List.filter_cons_of_pos (by exact hasContent_of_head hhead), List.filter_nil]
    refine .cons ⟨rfl, iff_of_true rfl hhead, ?_, nofun⟩ .nil
    rintro _ _ ⟨⟩
    exact hparse
  | @declaration block above d hcontent hhead hparse =>
    refine ⟨[.declaration d], by simp [Block.entries], ?_⟩
    rw [List.filter_cons_of_pos (by exact hcontent), List.filter_nil]
    refine .cons ⟨line_of_parse hparse, iff_of_false nofun hhead, nofun, ?_⟩ .nil
    rintro _ ⟨⟩
    exact hparse

/-- Each line with content adds one entry, which is read from it. -/
theorem entries_addLines {lines : List Text}
    (h : Block.addLines limits above number lines = .ok bs) :
    ∃ es, bs.reverse.flatMap Block.entries = above.reverse.flatMap Block.entries ++ es ∧
      List.Forall₂ Entry.ReadFrom es ((lines.zipIdx number).filter (hasContent ·.1)) := by
  induction lines generalizing above number with
  | nil =>
    cases h
    exact ⟨[], by simp, .nil⟩
  | cons line lines ih =>
    obtain ⟨mid, hline, h⟩ := Block.addLines_cons_ok_iff.1 h
    obtain ⟨es, hes, hread⟩ := entries_adds (Block.addLine_ok_iff.1 hline).2
    obtain ⟨es', hes', hread'⟩ := ih h
    refine ⟨es ++ es', by rw [hes', hes, List.append_assoc], ?_⟩
    rw [List.zipIdx_cons, ← List.singleton_append, List.filter_append]
    exact List.rel_append hread hread'

theorem pairwise_contentLines (t : Text) :
    ((contentLines t).map Prod.snd).Pairwise (· < ·) := by
  have hnumbers : (((Text.lines (Block.dropMark t)).zipIdx 1).map Prod.snd).Pairwise (· < ·) := by
    rw [List.zipIdx_map_snd]
    exact List.pairwise_lt_range'
  exact hnumbers.sublist (List.filter_sublist.map _)

/-- The entries of the blocks of a text are its lines apart from blank lines and comments, each read
as what it says, in their order; and a text may as well end its lines with carriage returns. -/
theorem entries_of_lines (t : Text) :
    (∀ limits bs, Block.ofText t limits = .ok bs →
      ((bs.flatMap Block.entries).map Entry.line).Pairwise (· < ·) ∧
      (bs.flatMap Block.entries).map Entry.line = (contentLines t).map Prod.snd ∧
      List.Forall₂ Entry.ReadFrom (bs.flatMap Block.entries) (contentLines t)) ∧
    ('\r' ∉ t → t.Fits → Block.ofText t.withReturns .unlimited = Block.ofText t .unlimited) := by
  refine ⟨fun limits bs h => ?_, Block.ofText_withReturns⟩
  obtain ⟨es, hes, hread⟩ := entries_addLines (Block.ofText_ok_iff.1 h).2
  rw [List.reverse_reverse, List.reverse_nil, List.flatMap_nil, List.nil_append] at hes
  rw [hes]
  have hnumbers : es.map Entry.line = (contentLines t).map Prod.snd :=
    (map_eq_of_forall₂ (hread.imp fun _ _ he => he.line.symm)).symm
  exact ⟨hnumbers ▸ pairwise_contentLines t, hnumbers, hread⟩

/-- A text with a comment, a blank line and lines that are set off. -/
def looseLines : Text := "; units\n  [A] # a\n\n x=1\n[B]: A\n".toList

theorem entries_of_lines_loose :
    Block.ofText looseLines .standard =
      .ok [⟨['A'], [], 2, [⟨['x'], ['1'], none, 4⟩]⟩, ⟨['B'], [['A']], 5, []⟩] ∧
    [2, 4, 5] = (contentLines looseLines).map Prod.snd ∧
    Block.ofText "; units\r\n  [A] # a\r\n\r\n x=1\r\n[B]: A\r\n".toList .unlimited =
      Block.ofText looseLines .unlimited := by
  have hblocks : Block.ofText looseLines .standard =
      .ok [⟨['A'], [], 2, [⟨['x'], ['1'], none, 4⟩]⟩, ⟨['B'], [['A']], 5, []⟩] := by rfl
  have hfits : looseLines.Fits := by
    unfold Text.Fits
    decide +kernel
  exact ⟨hblocks, ((entries_of_lines looseLines).1 _ _ hblocks).2.1,
    (entries_of_lines looseLines).2 (by decide +kernel) hfits⟩

end Source

end Lineage
