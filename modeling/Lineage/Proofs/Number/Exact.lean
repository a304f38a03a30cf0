import Mathlib.Algebra.Field.Rat
import Mathlib.Algebra.Order.Ring.Int
import Mathlib.Algebra.Order.Ring.Rat
import Mathlib.Tactic.Ring
import Mathlib.Order.Compare
import Lineage.Proofs.Number.Bits
import Lineage.Proofs.Number.Shortest
/-!
# The exact value of a double

A finite double denotes a rational number (`rational?`), a whole number of units of `2 ^ -1074`
(`rational?_eq_div`). Finite doubles are compared as these numbers are (`compare_unpack`).
-/
namespace Lineage.Number

open Float.Model Float.Model.UnpackedFloat

variable {x y : Float} {a b m k n l : Nat}

/-- The rational number that a finite double denotes. -/
def rational? (x : Float) : Option ℚ :=
  match x.toModel.unpack with
  | .finite s m e _ => some (s.apply m * 2 ^ e)
  | .zero _ => some 0
  | .infinity _ | .notANumber => none

/-- The number of units of a finite double, with its sign. -/
def signedUnits (x : Float) : Int := if isNegative x then -(units x : Int) else units x

/-! ## Comparing mantissas and scales -/

theorem compare_map {α β : Type} [LinearOrder α] [LinearOrder β] {f : α → β} (hf : StrictMono f)
    (a b : α) : compare (f a) (f b) = compare a b := by
  rw [← cmp_eq_compare, ← cmp_eq_compare, hf.cmp_map_eq]

/-- A greater scale makes up for any mantissa. -/
theorem Scaled.lt_of_scale_lt (ha : Scaled a m k) (hb : Scaled b n l) (h : k < l) : a < b := by
  have hn : binade ≤ n := hb.le.resolve_left (by omega)
  calc a = m * 2 ^ k := ha.eq
    _ < 2 * binade * 2 ^ k := Nat.mul_lt_mul_of_pos_right ha.lt (Nat.two_pow_pos k)
    _ = binade * 2 ^ (k + 1) := by rw [Nat.pow_succ]; ring
    _ ≤ n * 2 ^ l := Nat.mul_le_mul hn (Nat.pow_le_pow_right (by decide) h)
    _ = b := hb.eq.symm

theorem Scaled.pos (ha : Scaled a m k) (hm : 0 < m) : 0 < a := by
  rw [ha.eq]
  exact Nat.mul_pos hm (Nat.two_pow_pos k)

/-- Numbers of units are compared by their scales first. -/
theorem Scaled.compare_eq (ha : Scaled a m k) (hb : Scaled b n l) :
    (compare k l).then (compare m n) = compare a b := by
  rcases Nat.lt_trichotomy k l with h | rfl | h
  · rw [compare_lt_iff_lt.2 h, compare_lt_iff_lt.2 (ha.lt_of_scale_lt hb h)]
    rfl
  · have hmono : StrictMono fun m : Nat => m * 2 ^ k := fun _ _ h =>
      Nat.mul_lt_mul_of_pos_right h (Nat.two_pow_pos k)
    rw [compare_eq_iff_eq.2 rfl, ha.eq, hb.eq, compare_map hmono]
    rfl
  · rw [compare_gt_iff_gt.2 h, compare_gt_iff_gt.2 (hb.lt_of_scale_lt ha h)]
    rfl

/-! ## Unpacked doubles -/

/-- The sign of the bits is that of the unpacked number. -/
theorem signedUnits_eq (x : Float) :
    signedUnits x = (Sign.ofBitVec (@unpackSign .binary64 x.toBits.toBitVec)).apply (units x) := by
  have hsign : isNegative x = true ↔ ¬ @unpackSign .binary64 x.toBits.toBitVec = 0#1 := by
    have hlt := x.toBits.toNat_lt
    rw [isNegative, decide_eq_true_iff, ← BitVec.toNat_inj, toNat_unpackSign, signBit_eq]
    change 2 ^ 63 ≤ x.toBits.toNat ↔ ¬ x.toBits.toNat / 2 ^ 63 % 2 = 0
    omega
  rw [signedUnits, Sign.ofBitVec]
  by_cases h : isNegative x = true
  · rw [if_pos h, if_neg (hsign.1 h)]
    rfl
  · rw [if_neg h, if_pos (not_not.1 (mt hsign.2 h))]
    rfl

theorem magnitude_eq (x : Float) : magnitude x =
    (@unpackMantissa .binary64 x.toBits.toBitVec).toNat +
      (@unpackExponent .binary64 x.toBits.toBitVec).toNat * binade := by
  rw [toNat_unpackMantissa, toNat_unpackExponent, magnitude, signBit_eq,
    show binade = 2 ^ 52 from rfl]
  change x.toBits.toNat % 2 ^ 63 =
    x.toBits.toNat % 2 ^ 52 + x.toBits.toNat / 2 ^ 52 % 2 ^ 11 * 2 ^ 52
  omega

/-- A finite double is unpacked as a sign, a mantissa and a scale. -/
theorem exists_unpack (h : x.isFinite = true) : ∃ s, signedUnits x = s.apply (units x) ∧
    ((x.toModel.unpack = .zero s ∧ units x = 0) ∨
      ∃ (m k : Nat) (hm : 0 < m), x.toModel.unpack = .finite s m ((k : Int) - 1074) hm ∧
        Scaled (units x) m k) := by
  refine ⟨_, signedUnits_eq x, ?_⟩
  have hmag := magnitude_eq x
  have hlt : (@unpackMantissa .binary64 x.toBits.toBitVec).toNat < binade := BitVec.isLt _
  by_cases he : (@unpackExponent .binary64 x.toBits.toBitVec).toNat = 0
  · rw [he] at hmag
    rcases Nat.eq_zero_or_pos (@unpackMantissa .binary64 x.toBits.toBitVec).toNat with hm | hm
    · refine .inl ⟨unpack_of_zero he hm, ?_⟩
      rw [units, hmag, hm]
      rfl
    · exact .inr ⟨_, 0, hm, unpack_of_subnormal he hm, scaled_unitsOf hmag (by omega) (.inl rfl)⟩
  · -- the exponent is one more than the scale, and the mantissa leaves out its first bit
    obtain ⟨k, hk⟩ := Nat.exists_eq_succ_of_ne_zero he
    have hunpack := unpack_of_normal he ((exponent_ne_iff _).2 (isFinite_iff.1 h))
    have hexp : ((@unpackExponent .binary64 x.toBits.toBitVec).toNat : Int) - 1075 = k - 1074 := by
      omega
    rw [hexp] at hunpack
    refine .inr ⟨_, k, by omega, hunpack, scaled_unitsOf ?_ ?_ (.inr (Nat.le_add_right binade _))⟩
    · rw [hmag, hk, Nat.succ_mul, show (2 : Nat) ^ 52 = binade from rfl]
      omega
    · rw [show (2 : Nat) ^ 52 = binade from rfl]
      omega

/-! ## Order -/

theorem compare_neg (u v : Int) : compare (-u) (-v) = (compare u v).swap := by
  have hneg : StrictAnti fun u : Int => -u := fun _ _ h => Int.neg_lt_neg h
  rw [← cmp_eq_compare, ← cmp_eq_compare, cmp_swap]
  exact hneg.cmp_map_eq u v

theorem Scaled.compare_scale (ha : Scaled a m k) (hb : Scaled b n l) :
    (compare ((k : Int) - 1074) (l - 1074)).then (compare m n) = compare (a : Int) b := by
  have hscale : StrictMono fun k : Nat => (k : Int) - 1074 := fun _ _ h =>
    Int.sub_lt_sub_right (Int.ofNat_lt.2 h) _
  rw [compare_map hscale, ha.compare_eq hb, compare_map Nat.strictMono_cast]

/-- Finite doubles are compared as the numbers that they denote. -/
theorem compare_unpack (hx : x.isFinite = true) (hy : y.isFinite = true) :
    x.toModel.unpack.compare y.toModel.unpack = some (compare (signedUnits x) (signedUnits y)) := by
  obtain ⟨s, hsx, hx⟩ := exists_unpack hx
  obtain ⟨t, hsy, hy⟩ := exists_unpack hy
  rw [hsx, hsy]
  rcases hx with ⟨hx, hzero⟩ | ⟨m, k, hm, hx, ha⟩ <;>
    rcases hy with ⟨hy, hzero'⟩ | ⟨n, l, hn, hy, hb⟩ <;> rw [hx, hy]
  · -- the zeros are equal, whatever their signs are
    rw [hzero, hzero']
    cases s <;> cases t <;> rfl
  · have hpos := hb.pos hn
    cases t with
    | negative =>
      have hlt : -(units y : Int) < s.apply (units x) := by
        cases s <;> simp only [Sign.apply] <;> omega
      exact congrArg some (compare_gt_iff_gt.2 hlt).symm
    | positive =>
      have hlt : s.apply (units x) < (units y : Int) := by
        cases s <;> simp only [Sign.apply] <;> omega
      exact congrArg some (compare_lt_iff_lt.2 hlt).symm
  · have hpos := ha.pos hm
    cases s with
    | negative =>
      have hlt : -(units x : Int) < t.apply (units y) := by
        cases t <;> simp only [Sign.apply] <;> omega
      exact congrArg some (compare_lt_iff_lt.2 hlt).symm
    | positive =>
      have hlt : t.apply (units y) < (units x : Int) := by
        cases t <;> simp only [Sign.apply] <;> omega
      exact congrArg some (compare_gt_iff_gt.2 hlt).symm
  · have hpos := ha.pos hm
    have hpos' := hb.pos hn
    -- scales and mantissas only count where the signs are the same
    cases s <;> cases t
    · rw [Sign.apply, Sign.apply, compare_neg, ← ha.compare_scale hb]
      rfl
    · have hlt : -(units x : Int) < units y := by omega
      exact congrArg some (compare_lt_iff_lt.2 hlt).symm
    · have hlt : -(units y : Int) < units x := by omega
      exact congrArg some (compare_gt_iff_gt.2 hlt).symm
    · rw [Sign.apply, Sign.apply, ← ha.compare_scale hb]
      rfl

theorem lt_iff (hx : x.isFinite = true) (hy : y.isFinite = true) :
    x < y ↔ signedUnits x < signedUnits y := by
  refine (decide_eq_true_iff (p := x.toModel < y.toModel)).trans ?_
  change (x.toModel.unpack.compare y.toModel.unpack == some .lt) = true ↔ _
  rw [compare_unpack hx hy, ← compare_lt_iff_lt, beq_iff_eq, Option.some.injEq]

theorem le_iff (hx : x.isFinite = true) (hy : y.isFinite = true) :
    x ≤ y ↔ signedUnits x ≤ signedUnits y := by
  refine (decide_eq_true_iff (p := x.toModel ≤ y.toModel)).trans ?_
  change (x.toModel.unpack.compare y.toModel.unpack).any (·.isLE) = true ↔ _
  rw [compare_unpack hx hy, Option.any_some, Std.isLE_compare]

/-! ## Value -/

theorem apply_mul_zpow (s : Sign) (m k : Nat) {p : Nat} (hp : unitsPerOne = Nat.pow 2 p) :
    (s.apply m : ℚ) * 2 ^ ((k : ℤ) - p) = (s.apply (m * 2 ^ k : Nat) : ℚ) / unitsPerOne := by
  have happly : (s.apply (m * 2 ^ k : Nat) : ℚ) = s.apply m * 2 ^ k := by
    cases s <;> simp [Sign.apply]
  rw [happly, hp, zpow_sub₀ two_ne_zero, zpow_natCast, zpow_natCast, mul_div_assoc, Nat.pow_eq,
    Nat.cast_pow, Nat.cast_ofNat]

/-- The exact value of a finite double is its number of units, of which `2 ^ 1074` are one. -/
theorem rational?_eq_div (h : x.isFinite = true) :
    rational? x = some ((signedUnits x : ℚ) / unitsPerOne) := by
  obtain ⟨s, hs, hx⟩ := exists_unpack h
  rw [rational?, hs]
  rcases hx with ⟨hx, h0⟩ | ⟨m, k, hm, hx, ha⟩
  · have hzero : s.apply (0 : Nat) = 0 := by cases s <;> rfl
    rw [hx, h0, hzero, Int.cast_zero, zero_div]
  · rw [hx, ha.eq]
    exact congrArg some (@apply_mul_zpow s m k 1074 rfl)

theorem isFinite_of_rational? {q : ℚ} (h : rational? x = some q) : x.isFinite = true := by
  change x.toModel.unpack.isFinite = true
  unfold rational? at h
  split at h
  · next hx =>
    rw [hx]
    rfl
  · next hx =>
    rw [hx]
    rfl
  · cases h
  · cases h

/-! ## Whole numbers -/

variable {i j : Int}

theorem unitsPerOne_pos : 0 < unitsPerOne := Nat.pow_pos (by decide)

theorem rational?_eq_int_iff :
    rational? x = some (i : ℚ) ↔ x.isFinite = true ∧ signedUnits x = i * unitsPerOne := by
  have hone : (unitsPerOne : ℚ) ≠ 0 := Nat.cast_ne_zero.2 unitsPerOne_pos.ne'
  have hdiv : (signedUnits x : ℚ) / unitsPerOne = i ↔ signedUnits x = i * unitsPerOne := by
    rw [div_eq_iff hone, ← Int.cast_natCast unitsPerOne, ← Int.cast_mul, Int.cast_inj]
  constructor
  · intro h
    have hx := isFinite_of_rational? h
    rw [rational?_eq_div hx, Option.some.injEq] at h
    exact ⟨hx, hdiv.1 h⟩
  · rintro ⟨hx, h⟩
    rw [rational?_eq_div hx, hdiv.2 h]

theorem unitsPerOne_dvd : (unitsPerOne : Int) ∣ signedUnits x ↔ units x % unitsPerOne = 0 := by
  rw [← Nat.dvd_iff_mod_eq_zero, ← Int.natCast_dvd_natCast, signedUnits]
  split
  · exact Int.dvd_neg
  · exact Iff.rfl

/-- Whole are the doubles that denote an integer. -/
theorem isWhole_iff : isWhole x = true ↔ ∃ i : Int, rational? x = some (i : ℚ) := by
  rw [isWhole, decide_eq_true_iff, ← isFinite_iff, ← unitsPerOne_dvd]
  simp only [rational?_eq_int_iff, exists_and_left, Dvd.dvd, Int.mul_comm]

/-- A whole number is left as it is. -/
theorem truncate_of_rational? (h : rational? x = some (i : ℚ)) : truncate x = i := by
  obtain ⟨-, h⟩ := rational?_eq_int_iff.1 h
  have hone : (unitsPerOne : Int) ≠ 0 := Int.natCast_ne_zero.2 unitsPerOne_pos.ne'
  unfold signedUnits at h
  unfold truncate
  split at h
  · next hneg =>
    have h' : (units x : Int) = -i * unitsPerOne := by rw [Int.neg_mul, ← h, Int.neg_neg]
    rw [if_pos hneg, Int.natCast_ediv, h', Int.mul_ediv_cancel _ hone, Int.neg_neg]
  · next hpos =>
    rw [if_neg hpos, Int.natCast_ediv, h, Int.mul_ediv_cancel _ hone]

/-! ## Comparing with whole numbers -/

theorem le_iff_int (hx : rational? x = some (i : ℚ)) (hy : rational? y = some (j : ℚ)) :
    x ≤ y ↔ i ≤ j := by
  obtain ⟨hx, hi⟩ := rational?_eq_int_iff.1 hx
  obtain ⟨hy, hj⟩ := rational?_eq_int_iff.1 hy
  rw [le_iff hx hy, hi, hj, mul_le_mul_iff_left₀ (Int.natCast_pos.2 unitsPerOne_pos)]

theorem lt_iff_int (hx : rational? x = some (i : ℚ)) (hy : rational? y = some (j : ℚ)) :
    x < y ↔ i < j := by
  obtain ⟨hx, hi⟩ := rational?_eq_int_iff.1 hx
  obtain ⟨hy, hj⟩ := rational?_eq_int_iff.1 hy
  rw [lt_iff hx hy, hi, hj, mul_lt_mul_iff_left₀ (Int.natCast_pos.2 unitsPerOne_pos)]

end Lineage.Number
