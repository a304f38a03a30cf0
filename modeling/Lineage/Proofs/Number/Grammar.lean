import Lineage.Proofs.Number.Written
/-!
# The grammar of numerals

What the reader of literals takes is told part by part: a sign, a mantissa and an exponent
(`parts_of_ofText?`). The documented mantissas end with a digit; the reader also takes digits with a
point behind them.
-/
namespace Lineage.Number

/-- At least one digit: `D+`. -/
def Digits (t : Text) : Prop := t ≠ [] ∧ AllDigits t

/-- A sign, or none: `[+-]?`. -/
inductive Sign : Text → Prop where
  | none : Sign []
  | plus : Sign ['+']
  | minus : Sign ['-']

/-- Digits, with digits behind a point: `D+(\.D+)?` or `\.D+`. -/
inductive Mantissa : Text → Prop where
  | whole {w : Text} : Digits w → Mantissa w
  | fraction {w f : Text} : AllDigits w → Digits f → Mantissa (w ++ '.' :: f)

/-- Digits with a point behind them: `D+\.`. -/
inductive Pointed : Text → Prop where
  | pointed {w : Text} : Digits w → Pointed (w ++ ['.'])

/-- An exponent, or none: `([eE][+-]?D+)?`. -/
inductive Exponent : Text → Prop where
  | none : Exponent []
  | some {mark : Char} {s ds : Text} : mark = 'e' ∨ mark = 'E' → Sign s → Digits ds →
      Exponent (mark :: (s ++ ds))

/-- A numeral without a sign: `(D+(\.D+)?|\.D+)([eE][+-]?D+)?`. -/
inductive Unsigned : Text → Prop where
  | unsigned {m e : Text} : Mantissa m → Exponent e → Unsigned (m ++ e)

/-- A numeral: `[+-]?(D+(\.D+)?|\.D+)([eE][+-]?D+)?`. -/
inductive Signed : Text → Prop where
  | signed {s u : Text} : Sign s → Unsigned u → Signed (s ++ u)

variable {t : Text}

/-! ## What the reader takes -/

theorem sign_takeSign (t : Text) : ∃ s, Sign s ∧ t = s ++ (takeSign t).2 := by
  unfold takeSign
  split
  · exact ⟨_, .minus, rfl⟩
  · exact ⟨_, .plus, rfl⟩
  · exact ⟨_, .none, rfl⟩

theorem takeDigits_eq (t : Text) :
    t = (takeDigits t).1 ++ (takeDigits t).2 ∧ AllDigits (takeDigits t).1 :=
  ⟨List.takeWhile_append_dropWhile.symm, fun _ => List.mem_takeWhile_imp⟩

theorem takeFraction_eq (t : Text) : AllDigits (takeFraction t).1 ∧
    ((takeFraction t).1 = [] ∧ t = (takeFraction t).2 ∨
      t = '.' :: (takeFraction t).1 ++ (takeFraction t).2) := by
  unfold takeFraction
  split
  · next r =>
    obtain ⟨hr, hd⟩ := takeDigits_eq r
    exact ⟨hd, .inr (congrArg ('.' :: ·) hr)⟩
  · exact ⟨by simp [AllDigits], .inl ⟨rfl, rfl⟩⟩

/-- What is read as an exponent is one of the grammar. -/
theorem exponent_of_exponent? {e : Int} (h : exponent? t = some e) : Exponent t := by
  unfold exponent? at h
  split at h
  · exact .none
  · next mark r =>
    split at h
    · next hmark =>
      obtain ⟨s, hs, hr⟩ := sign_takeSign r
      obtain ⟨hds, hd⟩ := takeDigits_eq (takeSign r).2
      dsimp only at h
      split at h
      · cases h
      · next hends =>
        rw [not_or, not_not, List.isEmpty_iff, List.isEmpty_iff] at hends
        rw [hends.2, List.append_nil] at hds
        rw [hr, hds]
        exact .some hmark hs ⟨hends.1, hd⟩
    · cases h

/-- A literal is a sign, a mantissa or digits with a point behind them, and an exponent. -/
theorem parts_of_ofText? {l : Literal} (h : Literal.ofText? t = some l) :
    ∃ s m e, t = s ++ m ++ e ∧ Sign s ∧ (Mantissa m ∨ Pointed m) ∧ Exponent e := by
  obtain ⟨s, hs, hsign⟩ := sign_takeSign t
  obtain ⟨hwhole, hw⟩ := takeDigits_eq (takeSign t).2
  obtain ⟨hf, hfraction⟩ := takeFraction_eq (takeDigits (takeSign t).2).2
  simp only [Literal.ofText?] at h
  generalize (takeSign t).2 = r at *
  generalize takeDigits r = q at *
  generalize takeFraction q.2 = p at *
  split at h
  · cases h
  · next hdigits =>
    rw [List.isEmpty_iff, List.isEmpty_iff, not_and_or] at hdigits
    obtain ⟨e, he, -⟩ := Option.map_eq_some_iff.1 h
    have hexp := exponent_of_exponent? he
    rcases hfraction with ⟨hnil, hrest⟩ | hrest
    · refine ⟨s, q.1, p.2, ?_, hs, .inl (.whole ⟨?_, hw⟩), hexp⟩
      · rw [hsign, hwhole, hrest, List.append_assoc]
      · exact hdigits.resolve_right (not_not.2 hnil)
    · refine ⟨s, q.1 ++ '.' :: p.1, p.2, ?_, hs, ?_, hexp⟩
      · rw [hsign, hwhole, hrest]
        simp
      · by_cases hempty : p.1 = []
        · rw [hempty]
          exact .inr (.pointed ⟨hdigits.resolve_right (not_not.2 hempty), hw⟩)
        · exact .inl (.fraction hw ⟨hempty, hf⟩)

theorem exists_parts {x : Float} (h : parse? t = some x) :
    ∃ s m e, t = s ++ m ++ e ∧ Sign s ∧ (Mantissa m ∨ Pointed m) ∧ Exponent e := by
  obtain ⟨l, hl, -⟩ := Option.map_eq_some_iff.1 (Option.filter_eq_some_iff.1 h).1
  exact parts_of_ofText? hl

end Lineage.Number
