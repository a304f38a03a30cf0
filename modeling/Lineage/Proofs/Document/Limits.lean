import Lineage.Proofs.Document.Results
import Lineage.Proofs.Source.Added
/-!
# Limits only reject

Limits are checked while the lines are read, each as soon as it can be passed. In the end a text is
read exactly if it is read under wider limits and the whole of it keeps the narrow ones
(`ofText_ok_iff_keeps`). So wider limits change no document that was read (`limits_only_reject`).
-/
namespace Lineage

/-- Limits none of which is greater than that of others. -/
structure Limits.Le (l l' : Limits) : Prop where
  fileSize : l.fileSize ≤ l'.fileSize
  lineLength : l.lineLength ≤ l'.lineLength
  sections : l.sections ≤ l'.sections
  properties : l.properties ≤ l'.properties

instance : LE Limits := ⟨Limits.Le⟩

namespace Source.Block

/-- A text and its blocks keep limits. -/
structure Keeps (l : Limits) (t : Text) (bs : List Block) : Prop where
  /-- A byte order mark counts. -/
  fileSize : t.utf8Size ≤ l.fileSize
  lineLength : ∀ line ∈ Text.lines (dropMark t), line.utf8Size ≤ l.lineLength
  sections : bs.length ≤ l.sections
  properties : ∀ b ∈ bs, b.declarations.length ≤ l.properties

/-- No more blocks, and no more declarations in any of them, than limits allow. -/
structure Allowed (l : Limits) (bs : List Block) : Prop where
  sections : bs.length ≤ l.sections
  properties : ∀ b ∈ bs, b.declarations.length ≤ l.properties

variable {l l' : Limits} {number : Nat} {line t : Text} {lines : List Text} {above bs : List Block}

/-! ## One line -/

theorem Adds.of_le (hl : l ≤ l') (h : Adds l number line above bs) :
    Adds l' number line above bs := by
  cases h with
  | nothing hcontent => exact .nothing hcontent
  | header hhead hparse hcount => exact .header hhead hparse (hcount.trans hl.sections)
  | declaration hcontent hhead hparse hcount =>
    exact .declaration hcontent hhead hparse (hcount.trans hl.properties)

theorem Adds.allowed (h : Adds l number line above bs) (ha : Allowed l above) : Allowed l bs := by
  cases h with
  | nothing => exact ha
  | header _ _ hcount =>
    refine ⟨hcount, fun b hb => ?_⟩
    rcases List.mem_cons.1 hb with rfl | hb
    · exact Nat.zero_le _
    · exact ha.properties b hb
  | declaration _ _ _ hcount =>
    refine ⟨ha.sections, fun b hb => ?_⟩
    rcases List.mem_cons.1 hb with rfl | hb
    · rwa [List.length_append]
    · exact ha.properties b (List.mem_cons_of_mem _ hb)

/-- A line takes nothing back: what is allowed behind it was allowed before. -/
theorem Adds.allowed_above (h : Adds l' number line above bs) (hb : Allowed l bs) :
    Allowed l above := by
  cases h with
  | nothing => exact hb
  | header =>
    exact ⟨(Nat.le_succ _).trans hb.sections, fun b hm =>
      hb.properties b (List.mem_cons_of_mem _ hm)⟩
  | @declaration block =>
    refine ⟨hb.sections, fun b hm => ?_⟩
    rcases List.mem_cons.1 hm with rfl | hm
    · have := hb.properties _ (List.mem_cons_self ..)
      rw [List.length_append] at this
      exact (Nat.le_add_right _ _).trans this
    · exact hb.properties b (List.mem_cons_of_mem _ hm)

theorem Adds.of_allowed (h : Adds l' number line above bs) (hb : Allowed l bs) :
    Adds l number line above bs := by
  cases h with
  | nothing hcontent => exact .nothing hcontent
  | header hhead hparse => exact .header hhead hparse hb.sections
  | declaration hcontent hhead hparse =>
    have := hb.properties _ (List.mem_cons_self ..)
    rw [List.length_append] at this
    exact .declaration hcontent hhead hparse this

/-! ## All lines -/

theorem allowed_above_of_addLines (h : addLines l' above number lines = .ok bs)
    (hb : Allowed l bs) : Allowed l above := by
  induction lines generalizing above number with
  | nil =>
    cases h
    exact hb
  | cons line lines ih =>
    obtain ⟨mid, hline, h⟩ := addLines_cons_ok_iff.1 h
    exact (addLine_ok_iff.1 hline).2.allowed_above (ih h)

/-- What is checked line by line is what holds of all lines and of the blocks in the end. -/
theorem addLines_ok_iff_allowed (hl : l ≤ l') (ha : Allowed l above) :
    addLines l above number lines = .ok bs ↔ addLines l' above number lines = .ok bs ∧
      (∀ line ∈ lines, line.utf8Size ≤ l.lineLength) ∧ Allowed l bs := by
  induction lines generalizing above number with
  | nil =>
    constructor
    · intro h
      cases h
      exact ⟨rfl, by simp, ha⟩
    · exact And.left
  | cons line lines ih =>
    constructor
    · intro h
      obtain ⟨mid, hline, h⟩ := addLines_cons_ok_iff.1 h
      obtain ⟨hsize, hadds⟩ := addLine_ok_iff.1 hline
      obtain ⟨hrest, hsizes, hb⟩ := (ih (hadds.allowed ha)).1 h
      have hline' := addLine_ok_iff.2 ⟨hsize.trans hl.lineLength, hadds.of_le hl⟩
      exact ⟨addLines_cons_ok_iff.2 ⟨mid, hline', hrest⟩, List.forall_mem_cons.2 ⟨hsize, hsizes⟩,
        hb⟩
    · -- the blocks in the end bound those behind each line
      rintro ⟨h, hsizes, hb⟩
      obtain ⟨mid, hline, h⟩ := addLines_cons_ok_iff.1 h
      obtain ⟨hsize, hsizes⟩ := List.forall_mem_cons.1 hsizes
      have hadds := (addLine_ok_iff.1 hline).2
      have hmid := allowed_above_of_addLines h hb
      refine addLines_cons_ok_iff.2 ⟨mid, addLine_ok_iff.2 ⟨hsize, hadds.of_allowed hmid⟩, ?_⟩
      exact (ih hmid).2 ⟨h, hsizes, hb⟩

/-- A text is read under limits exactly if it is read under wider ones and keeps the narrow ones. -/
theorem ofText_ok_iff_keeps (hl : l ≤ l') :
    ofText t l = .ok bs ↔ ofText t l' = .ok bs ∧ Keeps l t bs := by
  have hnil : Allowed l [] := ⟨Nat.zero_le _, by simp⟩
  rw [ofText_ok_iff, ofText_ok_iff, addLines_ok_iff_allowed hl hnil]
  constructor
  · rintro ⟨hfile, hlines, hsizes, hb⟩
    refine ⟨⟨hfile.trans hl.fileSize, hlines⟩, hfile, hsizes, ?_, fun b hm => ?_⟩
    · simpa using hb.sections
    · exact hb.properties b (List.mem_reverse.2 hm)
  · rintro ⟨⟨-, hlines⟩, hk⟩
    refine ⟨hk.fileSize, hlines, hk.lineLength, ?_, fun b hm => ?_⟩
    · simpa using hk.sections
    · exact hk.properties b (List.mem_reverse.1 hm)

end Source.Block

namespace Document

open Construction Source

variable {l l' : Limits} {overwrite : Bool}

theorem sections_of_le (hl : l ≤ l') {t : Text} {ss : List Section}
    (h : Construction.sections t ⟨l, overwrite⟩ = .ok ss) :
    Construction.sections t ⟨l', overwrite⟩ = .ok ss := by
  unfold Construction.sections at h ⊢
  dsimp only at h ⊢
  split at h
  · cases h
  · next bs hbs => rwa [((Block.ofText_ok_iff_keeps hl).1 hbs).1]

/-- Limits of a machine only reject: a text is read under them exactly if it is read without, and it
is not too long, none of its lines is too long, and there are not too many blocks in it nor
declarations in one of them. So wider limits change no successful reading. -/
theorem limits_only_reject (hl : l ≤ .unlimited) :
    (∀ t bs, Block.ofText t l = .ok bs ↔
      Block.ofText t .unlimited = .ok bs ∧ Block.Keeps l t bs) ∧
    ∀ l', l ≤ l' →
      (∀ t bs, Block.ofText t l = .ok bs → Block.ofText t l' = .ok bs) ∧
      (∀ t overwrite d, parse t ⟨l, overwrite⟩ = .ok d →
        parse t ⟨l', overwrite⟩ = .ok { d with options := ⟨l', overwrite⟩ }) ∧
      ∀ fs path overwrite d, load fs path ⟨l, overwrite⟩ = .ok d →
        load fs path ⟨l', overwrite⟩ = .ok { d with options := ⟨l', overwrite⟩ } := by
  refine ⟨fun t bs => Block.ofText_ok_iff_keeps hl, fun l' hl' =>
    ⟨fun t bs h => ((Block.ofText_ok_iff_keeps hl').1 h).1, fun t overwrite d h => ?_,
      fun fs path overwrite d h => ?_⟩⟩
  · obtain ⟨ss, hs, rfl⟩ := parse_ok_iff_sections.1 h
    exact parse_ok_iff_sections.2 ⟨ss, sections_of_le hl' hs, rfl⟩
  · obtain ⟨hfile, t, ss, ht, hs, rfl⟩ := load_ok_iff.1 h
    exact load_ok_iff.2 ⟨hfile, t, ss, ht, sections_of_le hl' hs, rfl⟩

/-- A byte order mark, a comment, two blocks and a blank line between them. -/
def brimfulText : Text := "\uFEFF# c\n[A]\nx = 1\n\n[B] : A\n".toList

/-- Limits that `brimfulText` reaches, all four of them. -/
def brimful : Limits := ⟨26, 7, 2, 1⟩

theorem limits_only_reject_brimful : brimful ≤ .unlimited ∧ brimful ≤ .standard ∧
    ∃ bs d, Block.ofText brimfulText .unlimited = .ok bs ∧ Block.Keeps brimful brimfulText bs ∧
      Block.ofText brimfulText .standard = .ok bs ∧
      parse brimfulText ⟨brimful, true⟩ = .ok d ∧
      parse brimfulText .standard = .ok { d with options := .standard } := by
  have hl : brimful ≤ .unlimited := ⟨by decide, by decide, by decide, by decide⟩
  have hl' : brimful ≤ .standard := ⟨by decide, by decide, by decide, by decide⟩
  obtain ⟨bs, hbs⟩ := exists_of_isOk (x := Block.ofText brimfulText brimful) (by decide +kernel)
  obtain ⟨d, hd⟩ := exists_of_isOk (x := parse brimfulText ⟨brimful, true⟩) (by decide +kernel)
  obtain ⟨hkeeps, hraised⟩ := limits_only_reject hl
  obtain ⟨hblocks, hparse, -⟩ := hraised .standard hl'
  obtain ⟨hunlimited, hkeeps⟩ := (hkeeps _ _).1 hbs
  exact ⟨hl, hl', bs, d, hunlimited, hkeeps, hblocks _ _ hbs, hd, hparse _ _ _ hd⟩

/-- One less of any of them is too little. -/
example : ∀ l ∈ [⟨25, 7, 2, 1⟩, ⟨26, 6, 2, 1⟩, ⟨26, 7, 1, 1⟩, ⟨26, 7, 2, 0⟩],
    (Block.ofText brimfulText l).isOk = false := by decide +kernel

end Document

end Lineage
