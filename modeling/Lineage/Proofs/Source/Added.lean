import Lineage.Source.Block
/-!
# What a line adds

A line that is accepted leaves the blocks above it as they are, starts a block or declares a
property in the nearest one (`Block.Adds`). What holds of blocks read from a text is shown for these
three cases, and follows for all lines by induction (`addLines_cons_ok_iff`). Line numbers are kept
for faults only, so blocks are compared without them (`Block.unnumbered`). Limits reject texts and
change nothing else (`ofText_limits`).
-/
namespace Lineage

/-! ## Checks -/

namespace Limits

variable {l : Limits} {size number count : Nat} {name : Text}

theorem checkFileSize_ok_iff : l.checkFileSize size = .ok () ↔ size ≤ l.fileSize := by
  unfold checkFileSize
  split <;> simp <;> omega

theorem checkLineLength_ok_iff : l.checkLineLength size number = .ok () ↔ size ≤ l.lineLength := by
  unfold checkLineLength
  split <;> simp <;> omega

theorem checkSections_ok_iff : l.checkSections count = .ok () ↔ count ≤ l.sections := by
  unfold checkSections
  split <;> simp <;> omega

theorem checkProperties_ok_iff : l.checkProperties count name = .ok () ↔ count ≤ l.properties := by
  unfold checkProperties
  split <;> simp <;> omega

end Limits

namespace Source

/-! ## Lines -/

/-- Whether a line says something: it is neither blank nor a comment. -/
def hasContent (line : Text) : Bool := !(line.trim.isEmpty || isComment line.trim)

theorem hasContent_of_head {line : Text} (h : line.trim.head? = some '[') :
    hasContent line = true := by
  obtain ⟨r, hr⟩ := List.head?_eq_some_iff.1 h
  simp [hasContent, hr, isComment, Note.isMark]

namespace Block

variable {limits : Limits} {number : Nat} {line : Text} {lines : List Text}
  {above bs : List Block}

/-- What a line adds to the blocks above it, of which the nearest comes first. -/
inductive Adds (limits : Limits) (number : Nat) (line : Text) : List Block → List Block → Prop
  | nothing {above : List Block} (hcontent : hasContent line = false) :
    Adds limits number line above above
  | header {above : List Block} {h : Header} (hhead : line.trim.head? = some '[')
      (hparse : Header.parse line.trim = .ok h) (hcount : above.length + 1 ≤ limits.sections) :
    Adds limits number line above (⟨h.name, h.parents, number, []⟩ :: above)
  | declaration {block : Block} {above : List Block} {d : Declaration}
      (hcontent : hasContent line = true) (hhead : line.trim.head? ≠ some '[')
      (hparse : Declaration.parse line number = .ok d)
      (hcount : block.declarations.length + 1 ≤ limits.properties) :
    Adds limits number line (block :: above)
      ({ block with declarations := block.declarations ++ [d] } :: above)

theorem declare_ok_iff {b b' : Block} {d : Declaration} : b.declare limits d = .ok b' ↔
    b.declarations.length + 1 ≤ limits.properties ∧
      b' = { b with declarations := b.declarations ++ [d] } := by
  have hcheck : limits.checkProperties (b.declarations.length + 1) b.name = .ok () ↔
      b.declarations.length + 1 ≤ limits.properties := Limits.checkProperties_ok_iff
  unfold declare
  rw [← hcheck]
  cases limits.checkProperties (b.declarations.length + 1) b.name <;> simp [eq_comm]

theorem isEmpty_or_isComment (line : Text) :
    (line.trim.isEmpty || isComment line.trim) = !hasContent line := by
  rw [hasContent, Bool.not_not]

/-- A line that was read kept the limit and added what it says. -/
theorem adds_of_addLine (h : addLine limits above number line = .ok bs) :
    line.utf8Size ≤ limits.lineLength ∧ Adds limits number line above bs := by
  unfold addLine at h
  rw [isEmpty_or_isComment] at h
  split at h
  · cases h
  next hlength =>
  refine ⟨Limits.checkLineLength_ok_iff.1 hlength, ?_⟩
  split at h
  · next hcontent =>
    cases h
    exact .nothing (by simpa using hcontent)
  next hcontent =>
  split at h
  · next hhead =>
    split at h
    · cases h
    next hd hparse =>
    split at h
    · cases h
    next hcount =>
    cases h
    exact .header hhead hparse (Limits.checkSections_ok_iff.1 hcount)
  next hhead =>
  split at h
  · cases h
  next block above =>
  split at h
  · cases h
  next d hparse =>
  cases hb : block.declare limits d with
  | error f =>
    rw [hb] at h
    cases h
  | ok b =>
    obtain ⟨hcount, rfl⟩ := declare_ok_iff.1 hb
    rw [hb] at h
    cases h
    exact .declaration (by simpa using hcontent) hhead hparse hcount

/-- A line that keeps the limit and says something to add is read. -/
theorem addLine_of_adds (hline : line.utf8Size ≤ limits.lineLength)
    (hadds : Adds limits number line above bs) : addLine limits above number line = .ok bs := by
  unfold addLine
  rw [isEmpty_or_isComment, Limits.checkLineLength_ok_iff.2 hline]
  cases hadds with
  | nothing hcontent => simp only [hcontent, Bool.not_false, if_true]
  | header hhead hparse hcount =>
    simp only [hasContent_of_head hhead, Bool.not_true, Bool.false_eq_true, if_false, if_pos hhead,
      hparse, Limits.checkSections_ok_iff.2 hcount]
  | declaration hcontent hhead hparse hcount =>
    simp only [hcontent, Bool.not_true, Bool.false_eq_true, if_false, if_neg hhead, hparse,
      declare_ok_iff.2 ⟨hcount, rfl⟩]
    rfl

theorem addLine_ok_iff : addLine limits above number line = .ok bs ↔
    line.utf8Size ≤ limits.lineLength ∧ Adds limits number line above bs :=
  ⟨adds_of_addLine, fun h => addLine_of_adds h.1 h.2⟩

theorem addLines_cons_ok_iff : addLines limits above number (line :: lines) = .ok bs ↔
    ∃ mid, addLine limits above number line = .ok mid ∧
      addLines limits mid (number + 1) lines = .ok bs := by
  rw [addLines]
  cases addLine limits above number line <;> simp

theorem ofText_ok_iff {t : Text} : ofText t limits = .ok bs ↔
    t.utf8Size ≤ limits.fileSize ∧
      addLines limits [] 1 (Text.lines (dropMark t)) = .ok bs.reverse := by
  unfold ofText
  rw [← Limits.checkFileSize_ok_iff]
  cases limits.checkFileSize t.utf8Size with
  | error f => simp
  | ok u =>
    cases addLines limits [] 1 (Text.lines (dropMark t)) with
    | error f => simp [Except.map]
    | ok above => simp [Except.map, List.reverse_eq_iff]

end Block

end Source

/-! ## Line numbers and limits -/

/-- A text that a machine can hold: nothing takes more than half of the greatest size. -/
def Text.Fits (t : Text) : Prop := t.utf8Size ≤ Limits.greatest / 2

namespace Source

/-- A declaration apart from its place in the file. -/
def Declaration.unnumbered (d : Declaration) : Declaration := { d with line := 0 }

namespace Block

/-- A block apart from its place in the file. -/
def unnumbered (b : Block) : Block :=
  { b with line := 0, declarations := b.declarations.map Declaration.unnumbered }

variable {l l' : Limits} {above bs bs' : List Block} {number : Nat}

/-- What a line adds does not depend on the limits. -/
theorem Adds.eq {line : Text} (h : Adds l number line above bs)
    (h' : Adds l' number line above bs') : bs = bs' := by
  cases h with
  | nothing hcontent =>
    cases h' with
    | nothing => rfl
    | header hhead => simp [hasContent_of_head hhead] at hcontent
    | declaration hcontent' => simp [hcontent'] at hcontent
  | header hhead hparse =>
    cases h' with
    | nothing hcontent => simp [hasContent_of_head hhead] at hcontent
    | header _ hparse' =>
      obtain rfl := Except.ok.inj (hparse.symm.trans hparse')
      rfl
    | declaration _ hhead' => exact absurd hhead hhead'
  | declaration hcontent hhead hparse =>
    cases h' with
    | nothing hcontent' => simp [hcontent'] at hcontent
    | header hhead' => exact absurd hhead' hhead
    | declaration _ _ hparse' =>
      obtain rfl := Except.ok.inj (hparse.symm.trans hparse')
      rfl

theorem addLines_limits {lines : List Text} (h : addLines l above number lines = .ok bs)
    (h' : addLines l' above number lines = .ok bs') : bs = bs' := by
  induction lines generalizing above number with
  | nil => exact Except.ok.inj (h.symm.trans h')
  | cons line lines ih =>
    obtain ⟨mid, hline, h⟩ := addLines_cons_ok_iff.1 h
    obtain ⟨mid', hline', h'⟩ := addLines_cons_ok_iff.1 h'
    obtain rfl := (addLine_ok_iff.1 hline).2.eq (addLine_ok_iff.1 hline').2
    exact ih h h'

/-- A text that two limits accept has the same blocks under both. -/
theorem ofText_limits {t : Text} (h : ofText t l = .ok bs) (h' : ofText t l' = .ok bs') :
    bs = bs' :=
  List.reverse_inj.1 (addLines_limits (ofText_ok_iff.1 h).2 (ofText_ok_iff.1 h').2)

end Block

end Source

end Lineage
