import Mathlib.Data.List.TakeWhile
import Lineage.Number.Layout
import Lineage.Number.Literal
import Lineage.Proofs.Number.Bits
import Lineage.Proofs.Number.Shortest
/-!
# Written numbers read back

What is written for a finite double is a plain numeral (`isPlain_format`), and reading it gives an
equal double, which is written the same way (`parse?_format`).
-/
namespace Lineage.Number

/-- The text holds digits only. -/
def AllDigits (t : Text) : Prop := ∀ c ∈ t, c.isDigit = true

/-! ## Reading digits -/

theorem takeDigits_append {ds r : Text} (hd : AllDigits ds)
    (hr : ∀ c, r.head? = some c → c.isDigit = false) : takeDigits (ds ++ r) = (ds, r) := by
  have hr' : r.takeWhile Char.isDigit = [] ∧ r.dropWhile Char.isDigit = r := by
    cases r with
    | nil => exact ⟨rfl, rfl⟩
    | cons c r =>
      have := hr c rfl
      simp [this]
  rw [takeDigits, List.takeWhile_append_of_pos hd, List.dropWhile_append_of_pos hd, hr'.1, hr'.2,
    List.append_nil]

theorem takeDigits_self {ds : Text} (hd : AllDigits ds) : takeDigits ds = (ds, []) := by
  simpa using takeDigits_append (r := []) hd (by simp)

theorem takeSign_of_isDigit {c : Char} {r : Text} (h : c.isDigit = true) :
    takeSign (c :: r) = (false, c :: r) := by
  unfold takeSign
  split
  · next he =>
    cases he
    cases h
  · next he =>
    cases he
    cases h
  · rfl

/-- Reading a text behind its sign. -/
def ofUnsigned? (negative : Bool) (t : Text) : Option Literal :=
  let (whole, r) := takeDigits t
  let (fraction, r) := takeFraction r
  if whole.isEmpty ∧ fraction.isEmpty then none
  else (exponent? r).map fun e => ⟨negative, whole, fraction, e⟩

theorem ofText?_unsigned {c : Char} {r : Text} (h : c.isDigit = true) :
    Literal.ofText? (c :: r) = ofUnsigned? false (c :: r) := by
  rw [Literal.ofText?, takeSign_of_isDigit h]
  rfl

theorem ofText?_minus (t : Text) : Literal.ofText? ('-' :: t) = ofUnsigned? true t := rfl

theorem ofUnsigned?_whole {negative : Bool} {whole : Text} (hw : AllDigits whole)
    (hne : whole ≠ []) :
    ofUnsigned? negative whole = some ⟨negative, whole, [], 0⟩ := by
  rw [ofUnsigned?, takeDigits_self hw]
  simp [takeFraction, hne, exponent?]

theorem ofUnsigned?_fraction {negative : Bool} {whole fraction : Text} (hw : AllDigits whole)
    (hne : whole ≠ []) (hf : AllDigits fraction) :
    ofUnsigned? negative (whole ++ '.' :: fraction) = some ⟨negative, whole, fraction, 0⟩ := by
  have hdot : ∀ c, ('.' :: fraction).head? = some c → c.isDigit = false := by
    intro c hc
    cases hc
    decide
  rw [ofUnsigned?, takeDigits_append hw hdot]
  simp [takeFraction, takeDigits_self hf, hne, exponent?]

/-! ## The digits of a layout -/

theorem digitsValue_zeros (k : Nat) (ds : Text) :
    digitsValue (List.replicate k '0' ++ ds) = digitsValue ds := by
  rw [digitsValue, Nat.ofDigitChars_append, Nat.ofDigitChars_replicate_zero, Nat.mul_zero]
  rfl

theorem zeros_ne_nil {k : Nat} (hk : 0 < k) : List.replicate k '0' ≠ [] := by
  intro h
  have := congrArg List.length h
  simp only [List.length_replicate, List.length_nil] at this
  omega

theorem allDigits_zeros (k : Nat) : AllDigits (List.replicate k '0') := by
  intro c hc
  rw [List.eq_of_mem_replicate hc]
  decide

theorem AllDigits.append {s t : Text} (hs : AllDigits s) (ht : AllDigits t) : AllDigits (s ++ t) :=
  fun c hc => (List.mem_append.1 hc).elim (hs c) (ht c)

theorem allDigits_toDigits (n : Nat) : AllDigits (Nat.toDigits 10 n) :=
  fun _ hc => Nat.isDigit_of_mem_toDigits (by omega) (by omega) hc

/-- A text that is read as digits with this value on the grid `10 ^ -places`. -/
structure Reads (t : Text) (n places : Nat) : Prop where
  head : ∃ c r, t = c :: r ∧ c.isDigit = true ∧ ∀ d ∈ r, d.isDigit = true ∨ d = '.'
  parts : ∀ negative, ∃ whole fraction,
    ofUnsigned? negative t = some ⟨negative, whole, fraction, 0⟩ ∧
    digitsValue (whole ++ fraction) = n ∧ fraction.length = places

theorem reads_whole {ds : Text} (hd : AllDigits ds) (hne : ds ≠ []) :
    Reads ds (digitsValue ds) 0 := by
  refine ⟨?_, fun negative => ⟨ds, [], ofUnsigned?_whole hd hne, by rw [List.append_nil], rfl⟩⟩
  obtain ⟨c, r, rfl⟩ := List.exists_cons_of_ne_nil hne
  exact ⟨c, r, rfl, hd c (by simp), fun d h => .inl (hd d (by simp [h]))⟩

theorem reads_fraction {whole fraction : Text} (hw : AllDigits whole) (hne : whole ≠ [])
    (hf : AllDigits fraction) :
    Reads (whole ++ '.' :: fraction) (digitsValue (whole ++ fraction)) fraction.length := by
  refine ⟨?_, fun negative => ⟨whole, fraction, ofUnsigned?_fraction hw hne hf, rfl, rfl⟩⟩
  obtain ⟨c, r, rfl⟩ := List.exists_cons_of_ne_nil hne
  refine ⟨c, r ++ '.' :: fraction, rfl, hw c (by simp), fun d h => ?_⟩
  rcases List.mem_append.1 h with h | h
  · exact .inl (hw d (by simp [h]))
  · rcases List.mem_cons.1 h with rfl | h
    · exact .inr rfl
    · exact .inl (hf d h)

theorem reads_setPoint_of_nonneg {ds : Text} (hd : AllDigits ds) (hne : ds ≠ []) (k : Nat) :
    Reads (setPoint [] ds k) (digitsValue ds * 10 ^ k) 0 := by
  have h : setPoint [] ds k = ds ++ List.replicate k '0' := by
    rw [setPoint, if_pos (Int.natCast_nonneg k), Int.toNat_natCast, List.append_nil]
  have hv : digitsValue (ds ++ List.replicate k '0') = digitsValue ds * 10 ^ k := by
    rw [digitsValue, Nat.ofDigitChars_append, Nat.ofDigitChars_replicate_zero, Nat.mul_comm]
    rfl
  rw [h, ← hv]
  exact reads_whole (hd.append (allDigits_zeros k)) (by simp [hne])

/-- Digits with a point set into or before them are read as the digits over a power of ten. -/
theorem reads_setPoint_of_neg {ds : Text} (hd : AllDigits ds) {k : Nat} (hk : 0 < k) :
    Reads (setPoint [] ds (-k)) (digitsValue ds) k := by
  have hn : ¬ (0 : Int) ≤ -k := by omega
  have hp : (- -(k : Int)).toNat = k := by omega
  simp only [setPoint, if_neg hn, hp]
  split
  · next hlt =>
    have hne : ds.take (ds.length - k) ≠ [] := by
      intro h0
      have := congrArg List.length h0
      simp only [List.length_take, List.length_nil] at this
      omega
    have h := reads_fraction (fun c hc => hd c (List.mem_of_mem_take hc)) hne
      fun c hc => hd c (List.mem_of_mem_drop (i := ds.length - k) hc)
    rw [List.take_append_drop, List.length_drop] at h
    rwa [show ds.length - (ds.length - k) = k by omega] at h
  · next hge =>
    have h := reads_fraction (allDigits_zeros 1) (zeros_ne_nil Nat.one_pos)
      ((allDigits_zeros (k - ds.length)).append hd)
    have hlen : (List.replicate (k - ds.length) '0' ++ ds).length = k := by
      rw [List.length_append, List.length_replicate]
      omega
    have hv : digitsValue (List.replicate 1 '0' ++ (List.replicate (k - ds.length) '0' ++ ds)) =
        digitsValue ds :=
      (digitsValue_zeros 1 _).trans (digitsValue_zeros _ _)
    rwa [hlen, hv] at h

theorem nearestDecimal_shift {n k : Nat} (hn : n ≠ 0) (hk : k < 310) :
    nearestDecimal (n * 10 ^ k) 0 = nearestDecimal n k := by
  have hpos : n * 10 ^ k ≠ 0 := Nat.mul_ne_zero hn (Nat.pos_iff_ne_zero.1 (Nat.pow_pos (by omega)))
  rw [nearestDecimal_eq_nearest hpos (by omega) (by omega),
    nearestDecimal_eq_nearest hn (by omega) (by omega), Int.toNat_natCast, Int.toNat_neg_natCast]
  exact congrArg (nearest · _) (Nat.mul_one _)

/-- Digits with a point set by an exponent are read as a decimal that rounds to the same number. -/
theorem reads_setPoint {n bits : Nat} {e : Int} (h : nearestDecimal n e = bits) (h0 : bits ≠ 0)
    (hb : bits < infinity) : ∃ m places : Nat,
      Reads (setPoint [] (Nat.toDigits 10 n) e) m places ∧ nearestDecimal m (-places) = bits := by
  have hd := allDigits_toDigits n
  have hv : digitsValue (Nat.toDigits 10 n) = n := Nat.ofDigitChars_ten_toDigits
  have hn : n ≠ 0 := by
    rintro rfl
    exact h0 (h.symm.trans (nearestDecimal_zero e))
  have he : e < 310 := by
    refine Int.lt_of_not_ge fun he => ?_
    rw [nearestDecimal, if_neg hn, if_pos he] at h
    exact Nat.lt_irrefl _ (h ▸ hb)
  rcases Int.eq_nat_or_neg e with ⟨k, rfl | rfl⟩
  · have hr := reads_setPoint_of_nonneg hd Nat.toDigits_ne_nil k
    rw [hv] at hr
    exact ⟨_, 0, hr, (nearestDecimal_shift hn (by omega)).trans h⟩
  · by_cases hk : k = 0
    · subst hk
      have hr := reads_setPoint_of_nonneg hd Nat.toDigits_ne_nil 0
      rw [hv, Nat.pow_zero, Nat.mul_one] at hr
      exact ⟨n, 0, hr, h⟩
    · have hr := reads_setPoint_of_neg hd (Nat.pos_of_ne_zero hk)
      rw [hv] at hr
      exact ⟨n, k, hr, h⟩

/-- The text of a magnitude is read as that magnitude. -/
theorem reads_magnitudeText {bits : Nat} (hb : bits < infinity) :
    ∃ n places : Nat, Reads (plain.magnitudeText bits) n places ∧
      nearestDecimal n (-places) = bits := by
  by_cases h0 : bits = 0
  · subst h0
    exact ⟨0, 0, reads_whole (allDigits_zeros 1) (zeros_ne_nil Nat.one_pos), nearestDecimal_zero _⟩
  · have hs := nearestDecimal_shortest plain.tie h0
    unfold Layout.magnitudeText
    rw [if_neg h0]
    -- the digits must not be computed
    generalize shortest plain.tie bits = p at hs
    obtain ⟨n, e⟩ := p
    exact reads_setPoint hs h0 hb

/-- A text that is read as a decimal is the number that the decimal rounds to. -/
theorem parse?_of_reads {negative : Bool} {t : Text} {n places bits : Nat} (h : Reads t n places)
    (hn : nearestDecimal n (-places) = bits) (hb : bits < infinity) :
    parse? ((if negative then ['-'] else []) ++ t) = some (ofMagnitude negative bits) := by
  obtain ⟨whole, fraction, hp, hv, hl⟩ := h.parts negative
  have htext : Literal.ofText? ((if negative then ['-'] else []) ++ t) =
      ofUnsigned? negative t := by
    cases negative with
    | true => exact ofText?_minus t
    | false =>
      obtain ⟨c, r, rfl, hc, -⟩ := h.head
      exact ofText?_unsigned hc
  have hfloat : Literal.toFloat ⟨negative, whole, fraction, 0⟩ = ofMagnitude negative bits := by
    rw [Literal.toFloat, hv, hl, Int.zero_sub, hn]
  rw [parse?, htext, hp, Option.map_some, hfloat]
  exact Option.filter_some_pos (isFinite_ofMagnitude hb)

/-! ## Doubles -/

/-- A text is a plain numeral: perhaps a minus, a digit, and digits and points behind it. -/
def IsPlain (t : Text) : Prop :=
  ∃ c r, (t = c :: r ∨ t = '-' :: c :: r) ∧ c.isDigit = true ∧ ∀ d ∈ r, d.isDigit = true ∨ d = '.'

theorem IsPlain.exists_digits {t : Text} (h : IsPlain t) :
    ∃ w, (t = w ∨ t = '-' :: w) ∧ w ≠ [] ∧ ∀ c ∈ w, c.isDigit = true ∨ c = '.' := by
  obtain ⟨d, r, ht, hd, hr⟩ := h
  refine ⟨d :: r, ht, List.cons_ne_nil d r, fun c hc => ?_⟩
  rcases List.mem_cons.1 hc with rfl | hc
  · exact .inl hd
  · exact hr c hc

variable {x : Float}

theorem isPlain_text (h : x.isFinite = true) : IsPlain (plain.text x) := by
  obtain ⟨n, places, hr, -⟩ := reads_magnitudeText (isFinite_iff.1 h)
  obtain ⟨c, r, ht, hc, hd⟩ := hr.head
  refine ⟨c, r, ?_, hc, hd⟩
  rw [Layout.text, ht]
  cases isNegative x with
  | true => exact .inr rfl
  | false => exact .inl rfl

theorem parse?_text (h : x.isFinite = true) : parse? (plain.text x) = some x := by
  obtain ⟨n, places, hr, hn⟩ := reads_magnitudeText (isFinite_iff.1 h)
  rw [Layout.text, parse?_of_reads hr hn (isFinite_iff.1 h), ofMagnitude_magnitude h]

theorem format_eq (h : x.isFinite = true) : format x = if x == 0 then ['0'] else plain.text x := by
  have hinf : magnitude x ≠ infinity := Nat.ne_of_lt (isFinite_iff.1 h)
  rw [format, display, isNaN_of_isFinite h, if_neg Bool.false_ne_true, if_neg hinf]

/-- What is written for a finite double is a plain numeral. -/
theorem isPlain_format (h : x.isFinite = true) : IsPlain (format x) := by
  rw [format_eq h]
  split
  · exact ⟨'0', [], .inl rfl, rfl, by simp⟩
  · exact isPlain_text h

/-- What is written for a finite double is read as an equal one, which is written alike. -/
theorem parse?_format (h : x.isFinite = true) :
    ∃ y, parse? (format x) = some y ∧ (y == x) = true ∧ format y = format x := by
  rw [format_eq h]
  split
  · next h0 =>
    refine ⟨ofMagnitude false 0, ?_, zero_beq h0, rfl⟩
    have h := reads_whole (allDigits_zeros 1) (zeros_ne_nil Nat.one_pos)
    exact @parse?_of_reads false _ _ _ _ h (nearestDecimal_zero _) (by rw [infinity_eq]; omega)
  · next h0 => exact ⟨x, parse?_text h, beq_self h, by rw [format_eq h, if_neg h0]⟩

end Lineage.Number
