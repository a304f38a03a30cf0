import Mathlib.Algebra.Ring.Nat
import Lineage.Number.Layout
/-!
# The digits of a double read back

Rounding gives every magnitude back that is exactly a double (`nearest_exact`), and the digits
that are written for a magnitude are read as that magnitude (`nearestDecimal_shortest`).
-/
namespace Lineage.Number

/-! ## Rounding what is exact -/

theorem roundDiv_mul (n : Nat) {d : Nat} (hd : 0 < d) : roundDiv (n * d) d = n := by
  rw [roundDiv, Nat.mul_mod_left, if_pos (by omega), Nat.mul_div_cancel _ hd]

theorem log2_mul_two_pow {m : Nat} (hm : m ≠ 0) (k : Nat) : (m * 2 ^ k).log2 = m.log2 + k := by
  have hpos : m * 2 ^ k ≠ 0 := Nat.mul_ne_zero hm (Nat.pos_iff_ne_zero.1 (Nat.two_pow_pos k))
  rw [Nat.log2_eq_iff hpos, Nat.pow_add, Nat.add_right_comm, Nat.pow_add]
  exact ⟨Nat.mul_le_mul_right _ (Nat.log2_self_le hm),
    Nat.mul_lt_mul_of_pos_right Nat.lt_log2_self (Nat.two_pow_pos k)⟩

/-- A number of units is a mantissa and a scale. The mantissa has 53 bits, or fewer at scale
zero. -/
structure Scaled (u m k : Nat) : Prop where
  eq : u = m * 2 ^ k
  lt : m < 2 * binade
  le : k = 0 ∨ binade ≤ m

theorem scaled_unitsOf {bits m k : Nat} (h : bits = m + k * binade) (hm : m < 2 * binade)
    (hk : k = 0 ∨ binade ≤ m) : Scaled (unitsOf bits) m k := by
  have hscale : bits / binade - 1 = k := by
    rw [show binade = 2 ^ 52 from rfl] at *
    omega
  refine ⟨?_, hm, hk⟩
  rw [unitsOf, hscale, h, Nat.add_sub_cancel]
  rfl

/-- The scale is the one at which rounding takes place. -/
theorem Scaled.log2_sub {u m k : Nat} (h : Scaled u m k) : u.log2 - 52 = k := by
  have hb : binade = 2 ^ 52 := rfl
  have hlt := h.lt
  rcases h.le with rfl | hle
  · rw [h.eq, Nat.pow_zero, Nat.mul_one]
    by_cases hm : m = 0
    · rw [hm]
      rfl
    · have := (Nat.log2_lt (k := 53) hm).2 (by omega)
      omega
  · -- the first bit of the 53 is set
    have hm : m.log2 = 52 := by
      rw [Nat.log2_eq_iff (by omega)]
      omega
    rw [h.eq, log2_mul_two_pow (by omega), hm]
    omega

theorem exists_scaled (bits : Nat) :
    ∃ m k, bits = m + k * binade ∧ Scaled (unitsOf bits) m k := by
  have hbits : bits = bits - (bits / binade - 1) * binade + (bits / binade - 1) * binade := by
    rw [show binade = 2 ^ 52 from rfl]
    omega
  refine ⟨_, _, hbits, scaled_unitsOf hbits ?_ ?_⟩ <;> rw [show binade = 2 ^ 52 from rfl] <;> omega

theorem nearest_exact {num den bits : Nat} (hd : 0 < den)
    (h : num * unitsPerOne = unitsOf bits * den) : nearest num den = bits := by
  obtain ⟨m, k, hbits, hs⟩ := exists_scaled bits
  have hq : num * unitsPerOne / den = unitsOf bits := by rw [h, Nat.mul_div_cancel _ hd]
  simp only [nearest, hq, hs.log2_sub]
  rw [h, hs.eq, Nat.mul_assoc, Nat.mul_comm (2 ^ k)]
  rw [show Nat.pow 2 k = 2 ^ k from rfl, roundDiv_mul _ (Nat.mul_pos hd (Nat.two_pow_pos k))]
  exact hbits.symm

/-! ## Digits -/

theorem nearestDecimal_zero (e : Int) : nearestDecimal 0 e = 0 := rfl

/-- The choice between two neighbours on a grid, of which `rest` and `whole` tell the nearer one. -/
theorem nearestDecimal_of_choice {tie : Tie} {bits d low rest whole : Nat} {e : Int}
    (h : (if nearestDecimal low e = bits then
      if nearestDecimal (low + 1) e = bits then
        if rest < whole then some low
        else if whole < rest then some (low + 1)
        else match tie with
          | .up => some (low + 1)
          | .even => some (low + low % 2)
      else some low
    else if nearestDecimal (low + 1) e = bits then some (low + 1)
    else none) = some d) : nearestDecimal d e = bits := by
  split at h
  · next hlow =>
    split at h
    · next hhigh =>
      split at h
      · cases h
        exact hlow
      · split at h
        · cases h
          exact hhigh
        · cases tie with
          | up =>
            cases h
            exact hhigh
          | even =>
            cases h
            rcases Nat.mod_two_eq_zero_or_one low with hm | hm
            · rwa [hm]
            · rwa [hm]
    · cases h
      exact hlow
  · split at h
    · next hhigh =>
      cases h
      exact hhigh
    · cases h

theorem nearestDecimal_of_digitsAt? {tie : Tie} {bits d : Nat} {e : Int}
    (h : digitsAt? tie bits e = some d) : nearestDecimal d e = bits :=
  nearestDecimal_of_choice h

theorem nearestDecimal_eq_nearest {n : Nat} {e : Int} (hn : n ≠ 0) (he : e < 310)
    (hlog : -1076 ≤ n.log2 + 3 * e) :
    nearestDecimal n e = nearest (n * Nat.pow 10 e.toNat) (Nat.pow 10 (-e).toNat) := by
  unfold nearestDecimal
  rw [if_neg hn, if_neg (by omega), if_neg (by omega)]

/-- The exact decimal of a magnitude is read as the magnitude, where there are `2 ^ k` units in
one. -/
theorem nearestDecimal_exact {bits k : Nat} (hk : unitsPerOne = Nat.pow 2 k)
    (hlog : 3 * k ≤ (unitsOf bits * Nat.pow 5 k).log2 + 1076) (h : unitsOf bits ≠ 0) :
    nearestDecimal (unitsOf bits * Nat.pow 5 k) (-k) = bits := by
  have h5 : Nat.pow 5 k ≠ 0 := Nat.pos_iff_ne_zero.1 (Nat.pow_pos (by decide))
  rw [nearestDecimal_eq_nearest (Nat.mul_ne_zero h h5) (by omega) (by omega)]
  refine nearest_exact (Nat.pow_pos (by decide)) ?_
  have h10 : Nat.pow 10 k = Nat.pow 5 k * Nat.pow 2 k := Nat.mul_pow 5 2 k
  have h1 : Nat.pow 10 0 = 1 := rfl
  rw [Int.neg_neg, Int.toNat_natCast, Int.toNat_neg_natCast, h10, hk, h1, Nat.mul_one,
    Nat.mul_assoc]

theorem le_log2_mul {n f k : Nat} (hn : n ≠ 0) (hf : 2 ^ k ≤ f) : k ≤ (n * f).log2 := by
  have hpos : 0 < f := Nat.lt_of_lt_of_le (Nat.two_pow_pos k) hf
  rw [Nat.le_log2 (Nat.mul_ne_zero hn (Nat.pos_iff_ne_zero.1 hpos))]
  exact Nat.le_trans hf (Nat.le_mul_of_pos_left f (Nat.pos_of_ne_zero hn))

theorem le_log2_exact {n : Nat} (hn : n ≠ 0) : 3 * 1074 ≤ (n * Nat.pow 5 1074).log2 + 1076 := by
  have h5 : Nat.pow 2 2146 ≤ Nat.pow 5 1074 := by decide +kernel
  -- the power is too great to be computed with
  generalize Nat.pow 5 1074 = f at h5 ⊢
  have := @le_log2_mul n f 2146 hn h5
  clear h5
  omega

theorem unitsOf_ne_zero {bits : Nat} (h : bits ≠ 0) : unitsOf bits ≠ 0 := by
  obtain ⟨m, k, hb, hs⟩ := exists_scaled bits
  have hu := hs.eq
  have hk := hs.log2_sub
  intro h0
  rw [h0] at hk hu
  obtain rfl : k = 0 := hk.symm
  omega

theorem nearestDecimal_getD {found : Option (Nat × Int)} {n bits : Nat} {e : Int}
    (hfound : ∀ p, found = some p → nearestDecimal p.1 p.2 = bits)
    (h : nearestDecimal n e = bits) :
    nearestDecimal (found.getD (n, e)).1 (found.getD (n, e)).2 = bits := by
  cases found with
  | none => exact h
  | some p => exact hfound p rfl

/-- The digits that are written for a magnitude are read as that magnitude. -/
theorem nearestDecimal_shortest (tie : Tie) {bits : Nat} (h : bits ≠ 0) :
    nearestDecimal (shortest tie bits).1 (shortest tie bits).2 = bits := by
  unfold shortest
  refine nearestDecimal_getD (fun p hp => ?_) ?_
  · obtain ⟨i, -, hi⟩ := List.exists_of_findSome?_eq_some hp
    obtain ⟨d, hd, rfl⟩ := Option.map_eq_some_iff.1 hi
    exact nearestDecimal_of_digitsAt? hd
  · have hunits := unitsOf_ne_zero h
    exact @nearestDecimal_exact bits 1074 rfl (le_log2_exact hunits) hunits

end Lineage.Number
