import Mathlib.Computability.RegularExpressions
import Lineage.Proofs.Number.Grammar
import Lineage.Proofs.Value
/-!
# The regular expression of numerals

The reader of literals goes through a text once. It takes exactly the texts that the regular
expression `numeral` matches (`isLiteral_iff_matches`): each part ends where a character comes that
cannot go on with it, and no other part could begin sooner.
-/
namespace Lineage.Number

open RegularExpression

variable {t s m e : Text} {c : Char} {r : RegularExpression Char}

/-! ## Regular expressions -/

/-- One of some characters. -/
def oneOf (cs : List Char) : RegularExpression Char := cs.foldr (fun c r => char c + r) 0

/-- What may be left out: `r?`. -/
def maybe (r : RegularExpression Char) : RegularExpression Char := 1 + r

/-- Once or more often: `r+`. -/
def repeated (r : RegularExpression Char) : RegularExpression Char := r * star r

/-- A decimal digit: `D`. -/
def digit : RegularExpression Char := oneOf "0123456789".toList

/-- A numeral: `[+-]?(D+(\.D*)?|\.D+)([eE][+-]?D+)?`. -/
def numeral : RegularExpression Char :=
  maybe (oneOf ['+', '-']) *
    (repeated digit * maybe (char '.' * star digit) + char '.' * repeated digit) *
    maybe (oneOf ['e', 'E'] * maybe (oneOf ['+', '-']) * repeated digit)

theorem mem_char : t ∈ (char c).matches' ↔ t = [c] := Iff.rfl

theorem mem_oneOf {cs : List Char} : t ∈ (oneOf cs).matches' ↔ ∃ c ∈ cs, t = [c] := by
  induction cs with
  | nil => exact iff_of_false (Language.notMem_zero t) (by simp)
  | cons c cs ih =>
    rw [oneOf, List.foldr_cons, ← oneOf, matches'_add, Language.mem_add, mem_char, ih]
    simp

theorem mem_maybe : t ∈ (maybe r).matches' ↔ t = [] ∨ t ∈ r.matches' := by
  rw [maybe, matches'_add, Language.mem_add]
  rfl

/-! ## The parts of a numeral -/

theorem isDigit_iff_mem : c.isDigit = true ↔ c ∈ "0123456789".toList := by
  have hall : ∀ n < 10, Char.ofNat (48 + n) ∈ "0123456789".toList := by decide
  constructor
  · intro h
    have hc : 48 ≤ c.toNat ∧ c.toNat ≤ 57 := Char.isDigit_iff_toNat.1 h
    have := hall (c.toNat - 48) (by omega)
    rwa [Nat.add_sub_cancel' (by omega), Char.ofNat_toNat] at this
  · have hdigits : "0123456789".toList.all Char.isDigit = true := by decide
    exact List.all_eq_true.1 hdigits c

theorem mem_digit : t ∈ digit.matches' ↔ ∃ c, c.isDigit = true ∧ t = [c] := by
  simp only [digit, mem_oneOf, isDigit_iff_mem]

theorem mem_star_digit : t ∈ (star digit).matches' ↔ AllDigits t := by
  rw [matches'_star, Language.mem_kstar]
  constructor
  · rintro ⟨words, rfl, hwords⟩ c hc
    obtain ⟨word, hword, hc⟩ := List.mem_flatten.1 hc
    obtain ⟨d, hd, rfl⟩ := mem_digit.1 (hwords word hword)
    rwa [List.mem_singleton.1 hc]
  · intro h
    refine ⟨t.map ([·]), t.flatMap_singleton'.symm, fun word hword => ?_⟩
    obtain ⟨c, hc, rfl⟩ := List.mem_map.1 hword
    exact mem_digit.2 ⟨c, h c hc, rfl⟩

theorem mem_digits : t ∈ (repeated digit).matches' ↔ Digits t := by
  rw [repeated, matches'_mul, Language.mem_mul]
  constructor
  · rintro ⟨d, hd, ds, hds, rfl⟩
    obtain ⟨c, hc, rfl⟩ := mem_digit.1 hd
    exact ⟨by simp, List.forall_mem_cons.2 ⟨hc, mem_star_digit.1 hds⟩⟩
  · rintro ⟨hne, hall⟩
    obtain ⟨c, ds, rfl⟩ := List.exists_cons_of_ne_nil hne
    obtain ⟨hc, hds⟩ := List.forall_mem_cons.1 hall
    exact ⟨[c], mem_digit.2 ⟨c, hc, rfl⟩, ds, mem_star_digit.2 hds, rfl⟩

theorem mem_sign : t ∈ (maybe (oneOf ['+', '-'])).matches' ↔ Sign t := by
  rw [mem_maybe, mem_oneOf]
  constructor
  · rintro (rfl | ⟨c, hc, rfl⟩)
    · exact .none
    · simp only [List.mem_cons, List.not_mem_nil, or_false] at hc
      rcases hc with rfl | rfl
      · exact .plus
      · exact .minus
  · rintro (_ | _ | _) <;> simp

/-- The mantissas of the expression are digits with or without a point. -/
theorem mem_mantissa :
    t ∈ (repeated digit * maybe (char '.' * star digit) + char '.' * repeated digit).matches' ↔
      Mantissa t ∨ Pointed t := by
  rw [matches'_add, Language.mem_add, matches'_mul, Language.mem_mul, matches'_mul,
    Language.mem_mul]
  simp only [mem_digits, mem_maybe, mem_char, matches'_mul, Language.mem_mul, mem_star_digit]
  constructor
  -- digits with a point are a mantissa of their own if none stand behind the point
  · rintro (⟨w, hw, f, rfl | ⟨p, rfl, f, hf, rfl⟩, rfl⟩ | ⟨p, rfl, f, hf, rfl⟩)
    · rw [List.append_nil]
      exact .inl (.whole hw)
    · by_cases hempty : f = []
      · subst hempty
        exact .inr (.pointed hw)
      · exact .inl (.fraction hw.2 ⟨hempty, hf⟩)
    · exact .inl (.fraction (w := []) (by simp [AllDigits]) hf)
  · rintro (h | h)
    · cases h with
      | whole hw => exact .inl ⟨t, hw, [], .inl rfl, List.append_nil t⟩
      | @fraction w f hw hf =>
        by_cases hempty : w = []
        · subst hempty
          exact .inr ⟨['.'], rfl, f, hf, rfl⟩
        · exact .inl ⟨w, ⟨hempty, hw⟩, _, .inr ⟨['.'], rfl, f, hf.2, rfl⟩, rfl⟩
    · cases h with
      | @pointed w hw =>
        exact .inl ⟨w, hw, _, .inr ⟨['.'], rfl, [], by simp [AllDigits], rfl⟩, rfl⟩

/-- The exponents of the expression are those of the grammar. -/
theorem mem_exponent :
    t ∈ (maybe (oneOf ['e', 'E'] * maybe (oneOf ['+', '-']) * repeated digit)).matches' ↔
      Exponent t := by
  rw [mem_maybe, matches'_mul, Language.mem_mul]
  simp only [matches'_mul, Language.mem_mul, mem_oneOf, mem_sign, mem_digits]
  constructor
  · rintro (rfl | ⟨_, ⟨_, ⟨mark, hmark, rfl⟩, sign, hs, rfl⟩, ds, hds, rfl⟩)
    · exact .none
    · exact .some (by simpa using hmark) hs hds
  · intro h
    cases h with
    | none => exact .inl rfl
    | @some mark s ds hmark hs hds =>
      exact .inr ⟨mark :: s, ⟨[mark], ⟨mark, by simpa using hmark, rfl⟩, s, hs, rfl⟩, ds, hds, rfl⟩

theorem mem_numeral : t ∈ numeral.matches' ↔
    ∃ s m e, t = s ++ m ++ e ∧ Sign s ∧ (Mantissa m ∨ Pointed m) ∧ Exponent e := by
  rw [numeral, matches'_mul, Language.mem_mul]
  simp only [mem_exponent]
  rw [matches'_mul]
  simp only [Language.mem_mul, mem_sign, mem_mantissa]
  constructor
  · rintro ⟨_, ⟨s, hs, m, hm, rfl⟩, e, he, rfl⟩
    exact ⟨s, m, e, rfl, hs, hm, he⟩
  · rintro ⟨s, m, e, rfl, hs, hm, he⟩
    exact ⟨s ++ m, ⟨s, hs, m, hm, rfl⟩, e, he, rfl⟩

/-! ## The reader takes every numeral -/

theorem takeSign_append (hs : Sign s) (hr : ∀ c, t.head? = some c → c ≠ '-' ∧ c ≠ '+') :
    (takeSign (s ++ t)).2 = t := by
  cases hs with
  | plus => rfl
  | minus => rfl
  | none =>
    rw [List.nil_append]
    unfold takeSign
    split
    · exact absurd rfl (hr _ rfl).1
    · exact absurd rfl (hr _ rfl).2
    · rfl

theorem Digits.exists_head (h : Digits t) : ∃ c, t.head? = some c ∧ c.isDigit = true := by
  obtain ⟨c, r, rfl⟩ := List.exists_cons_of_ne_nil h.1
  exact ⟨c, rfl, h.2 c List.mem_cons_self⟩

theorem head_exponent (h : Exponent e) (c : Char) (hc : e.head? = some c) :
    c.isDigit = false ∧ c ≠ '.' := by
  cases h with
  | none => cases hc
  | some hmark =>
    cases hc
    rcases hmark with rfl | rfl <;> decide

theorem isSome_exponent? (h : Exponent e) : (exponent? e).isSome = true := by
  cases h with
  | none => rfl
  | @some mark s ds hmark hs hds =>
    have hsign : (takeSign (s ++ ds)).2 = ds := by
      refine takeSign_append hs fun c hc => ?_
      obtain ⟨d, hd, hdigit⟩ := hds.exists_head
      cases hd.symm.trans hc
      constructor <;> rintro rfl <;> cases hdigit
    rw [exponent?, if_pos hmark]
    dsimp only
    rw [hsign, takeDigits_self hds.2, if_neg]
    · rfl
    · simpa using hds.1

/-- Digits, perhaps a point behind them, and digits behind the point. -/
theorem exists_digits_of_mantissa (h : Mantissa m ∨ Pointed m) : ∃ w p f, m = w ++ p ∧
    AllDigits w ∧ AllDigits f ∧ (p = [] ∧ f = [] ∨ p = '.' :: f) ∧ ¬ (w = [] ∧ f = []) := by
  have hnil : AllDigits [] := by simp [AllDigits]
  rcases h with h | h
  · cases h with
    | whole hw =>
      exact ⟨m, [], [], (List.append_nil m).symm, hw.2, hnil, .inl ⟨rfl, rfl⟩, fun h => hw.1 h.1⟩
    | @fraction w f hw hf => exact ⟨w, _, f, rfl, hw, hf.2, .inr rfl, fun h => hf.1 h.2⟩
  · cases h with
    | @pointed w hw => exact ⟨w, _, [], rfl, hw.2, hnil, .inr rfl, fun h => hw.1 h.1⟩

/-- The digits of a mantissa are taken, and the exponent is left. -/
theorem takeFraction_mantissa (hm : Mantissa m ∨ Pointed m) (he : Exponent e) : ∃ f,
    takeFraction (takeDigits (m ++ e)).2 = (f, e) ∧ ¬ ((takeDigits (m ++ e)).1 = [] ∧ f = []) := by
  obtain ⟨w, p, f, rfl, hw, hf, hp, hne⟩ := exists_digits_of_mantissa hm
  have hends : ∀ c, e.head? = some c → c.isDigit = false := fun c hc => (head_exponent he c hc).1
  have hwhole : takeDigits (w ++ (p ++ e)) = (w, p ++ e) := by
    refine takeDigits_append hw ?_
    -- the digits end at the exponent or at the point
    rcases hp with ⟨rfl, rfl⟩ | rfl
    · exact hends
    · rintro c ⟨⟩
      rfl
  have hfraction : takeFraction (p ++ e) = (f, e) := by
    rcases hp with ⟨rfl, rfl⟩ | rfl
    · rw [List.nil_append]
      unfold takeFraction
      split
      · exact absurd rfl (head_exponent he '.' rfl).2
      · rfl
    · exact takeDigits_append hf hends
  rw [List.append_assoc, hwhole]
  exact ⟨f, hfraction, hne⟩

/-- No mantissa starts with a sign, so the sign in front is taken first. -/
theorem head_mantissa (hm : Mantissa m ∨ Pointed m) (c : Char) (hc : (m ++ e).head? = some c) :
    c ≠ '-' ∧ c ≠ '+' := by
  have hdigit : c.isDigit = true ∨ c = '.' := by
    obtain ⟨w, p, f, rfl, hw, hf, hp, hne⟩ := exists_digits_of_mantissa hm
    cases w with
    | cons d w =>
      cases hc
      exact .inl (hw _ List.mem_cons_self)
    | nil =>
      rcases hp with ⟨rfl, rfl⟩ | rfl
      · exact absurd ⟨rfl, rfl⟩ hne
      · cases hc
        exact .inr rfl
  constructor <;> rintro rfl <;> revert hdigit <;> decide

theorem isLiteral_of_parts (hs : Sign s) (hm : Mantissa m ∨ Pointed m) (he : Exponent e) :
    isLiteral (s ++ m ++ e) = true := by
  obtain ⟨f, hf, hne⟩ := takeFraction_mantissa hm he
  rw [isLiteral, Literal.ofText?, List.append_assoc]
  dsimp only
  rw [takeSign_append hs (head_mantissa hm), hf, if_neg (by simpa using hne), Option.isSome_map]
  exact isSome_exponent? he

theorem isLiteral_iff_parts : isLiteral t = true ↔
    ∃ s m e, t = s ++ m ++ e ∧ Sign s ∧ (Mantissa m ∨ Pointed m) ∧ Exponent e := by
  constructor
  · intro h
    obtain ⟨l, hl⟩ := Option.isSome_iff_exists.1 h
    exact parts_of_ofText? hl
  · rintro ⟨s, m, e, rfl, hs, hm, he⟩
    exact isLiteral_of_parts hs hm he

theorem isLiteral_of_parse? {x : Float} (h : parse? t = some x) : isLiteral t = true := by
  obtain ⟨l, hl, -⟩ := Option.map_eq_some_iff.1 (Option.filter_eq_some_iff.1 h).1
  rw [isLiteral, hl]
  rfl

/-- The reader takes the texts that the regular expression of numerals matches, and a literal is
read as a number only if it is one of them with the blanks around it taken off. -/
theorem isLiteral_iff_matches (t : Text) : (isLiteral t = true ↔ t ∈ numeral.matches') ∧
    ∀ x, Value.infer t = .number x → t.trim ∈ numeral.matches' := by
  have hiff : ∀ t, isLiteral t = true ↔ t ∈ numeral.matches' := fun t =>
    isLiteral_iff_parts.trans mem_numeral.symm
  exact ⟨hiff t, fun x hx => (hiff t.trim).1 (isLiteral_of_parse? (Value.parse?_of_infer hx))⟩

/-- The point may stand behind all digits, and the blank in front is a wide one. -/
theorem isLiteral_iff_matches_padded : (∃ x, Value.infer "\u2003+5.e-1 ".toList = .number x) ∧
    "+5.e-1".toList ∈ numeral.matches' := by
  have h : (parse? (Text.trim "\u2003+5.e-1 ".toList)).isSome = true := by decide +kernel
  obtain ⟨x, hx⟩ := Option.isSome_iff_exists.1 h
  have hinfer := Value.infer_of_number hx
  exact ⟨⟨x, hinfer⟩, (isLiteral_iff_matches "\u2003+5.e-1 ".toList).2 x hinfer⟩

end Lineage.Number
