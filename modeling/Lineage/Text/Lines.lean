/-!
# Texts, their blank ends and their lines

A text is the list of its characters. `isBlank` is the class of blank characters, `trim` takes
them off both ends, and `utf8Size` is the length that size limits speak of. A line ends at a
newline, and a carriage return directly before the newline belongs to the end of the line. After
the last newline there is a line only if there is text.
-/
namespace Lineage

/-- A text is the list of its characters. -/
abbrev Text := List Char

namespace Text

/-- The code points with the property `White_Space`. -/
def blankCodes : List Nat :=
  [0x09, 0x0A, 0x0B, 0x0C, 0x0D, 0x20, 0x85, 0xA0, 0x1680,
   0x2000, 0x2001, 0x2002, 0x2003, 0x2004, 0x2005, 0x2006, 0x2007, 0x2008, 0x2009, 0x200A,
   0x2028, 0x2029, 0x202F, 0x205F, 0x3000]

/-- A character is blank if its code point is in the table. -/
def isBlank (c : Char) : Bool := blankCodes.contains c.toNat

/-- Takes the characters in `p` off the end. -/
def dropEnd (p : Char → Bool) (t : Text) : Text := (t.reverse.dropWhile p).reverse

/-- Takes the blanks off the end. -/
def trimEnd (t : Text) : Text := dropEnd isBlank t

/-- Takes the blanks off both ends. -/
def trim (t : Text) : Text := trimEnd (t.dropWhile isBlank)

/-- The number of bytes of the text in UTF-8. -/
def utf8Size (t : Text) : Nat := t.foldr (fun c n => c.utf8Size + n) 0

@[simp] theorem trim_nil : trim [] = [] := rfl

@[simp] theorem utf8Size_nil : utf8Size [] = 0 := rfl

@[simp] theorem utf8Size_cons (c : Char) (t : Text) : utf8Size (c :: t) = c.utf8Size + utf8Size t :=
  rfl

@[simp] theorem utf8Size_append (s t : Text) : utf8Size (s ++ t) = utf8Size s + utf8Size t := by
  induction s with
  | nil => simp
  | cons c s ih => simp [ih, Nat.add_assoc]

/-! ## Lines -/

/-- The carriage return at the head of a line that is written backwards. -/
def dropReturn : Text → Text
  | '\r' :: l => l
  | l => l

/-- The lines of a text, where `cur` holds, backwards, what was read of the first one. -/
def linesFrom : Text → Text → List Text
  | cur, [] => if cur.isEmpty then [] else [cur.reverse]
  | cur, '\n' :: r => (dropReturn cur).reverse :: linesFrom [] r
  | cur, c :: r => linesFrom (c :: cur) r

/-- The lines of a text, without their ends. -/
def lines (t : Text) : List Text := linesFrom [] t

@[simp] theorem lines_nil : lines [] = [] := rfl

theorem linesFrom_append {l : Text} (hl : ∀ c ∈ l, c ≠ '\n') (cur r : Text) :
    linesFrom cur (l ++ r) = linesFrom (l.reverse ++ cur) r := by
  induction l generalizing cur with
  | nil => rfl
  | cons c l ih =>
    have hc : c ≠ '\n' := hl c (by simp)
    rw [List.cons_append, linesFrom.eq_3 _ _ _ (by simpa using hc),
      ih (fun x hx => hl x (by simp [hx]))]
    simp

/-- A line without newline or closing carriage return comes back as it was written. -/
theorem lines_cons {l : Text} (hl : ∀ c ∈ l, c ≠ '\n') (hr : l.getLast? ≠ some '\r') (r : Text) :
    lines (l ++ '\n' :: r) = l :: lines r := by
  rw [lines, linesFrom_append hl, linesFrom]
  have : dropReturn (l.reverse ++ []) = l.reverse := by
    rw [List.append_nil]
    cases h : l.reverse with
    | nil => rfl
    | cons c s =>
      have hc : c ≠ '\r' := by
        intro e; subst e
        apply hr
        rw [List.getLast?_eq_head?_reverse, h]; rfl
      simp [dropReturn, hc]
  rw [this, List.reverse_reverse]; rfl

end Text

end Lineage
