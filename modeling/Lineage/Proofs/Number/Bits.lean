import Mathlib.Algebra.Ring.Nat
import Lineage.Number.Literal
/-!
# Doubles and their bits

A finite double is its bits: reading them back gives the double (`ofMagnitude_magnitude`), and all
magnitudes below `infinity` are those of finite doubles (`isFinite_ofMagnitude`).
-/
namespace Lineage.Number

open Float.Model Float.Model.UnpackedFloat

/-! ## Fields of a bit pattern -/

theorem sign_ofBitVec_toBitVec (v : BitVec 1) : (Sign.ofBitVec v).toBitVec = v := by
  revert v
  decide

theorem toNat_unpackExponent (b : BitVec 64) :
    (@unpackExponent .binary64 b).toNat = b.toNat / 2 ^ 52 % 2 ^ 11 := by
  simp [unpackExponent, Nat.shiftRight_eq_div_pow]

theorem toNat_unpackMantissa (b : BitVec 64) :
    (@unpackMantissa .binary64 b).toNat = b.toNat % 2 ^ 52 := by
  simp [unpackMantissa]

theorem toNat_unpackSign (b : BitVec 64) :
    (@unpackSign .binary64 b).toNat = b.toNat / 2 ^ 63 % 2 := by
  change (b.extractLsb' 63 1).toNat = _
  simp [Nat.shiftRight_eq_div_pow]

theorem toNat_packComponents (s : Sign) (e : BitVec 11) (m : BitVec 52) :
    (packComponents Format.binary64 s e m).toNat =
      s.toBitVec.toNat * 2 ^ 63 + e.toNat * 2 ^ 52 + m.toNat := by
  have he := e.isLt
  have hm := m.isLt
  unfold packComponents
  rw [BitVec.toNat_append, BitVec.toNat_append, ← Nat.shiftLeft_add_eq_or_of_lt hm,
    ← Nat.shiftLeft_add_eq_or_of_lt he, Nat.shiftLeft_eq, Nat.shiftLeft_eq]
  omega

theorem packComponents_unpack (b : BitVec 64) :
    packComponents Format.binary64 (Sign.ofBitVec (@unpackSign .binary64 b))
      (unpackExponent b) (unpackMantissa b) = b := by
  apply BitVec.eq_of_toNat_eq
  have h := toNat_packComponents (Sign.ofBitVec (@unpackSign .binary64 b))
    (@unpackExponent .binary64 b) (@unpackMantissa .binary64 b)
  rw [sign_ofBitVec_toBitVec, toNat_unpackExponent, toNat_unpackMantissa, toNat_unpackSign] at h
  rw [h]
  have := b.isLt
  omega

/-! ## Unpacking -/

variable {b : BitVec 64}

theorem unpack_of_zero (he : (@unpackExponent .binary64 b).toNat = 0)
    (hm : (@unpackMantissa .binary64 b).toNat = 0) : UnpackedFloat.unpack .binary64 b =
      .zero (Sign.ofBitVec (@unpackSign .binary64 b)) := by
  have he' : @unpackExponent .binary64 b = 0#11 := BitVec.eq_of_toNat_eq he
  have hm' : @unpackMantissa .binary64 b = 0#52 := BitVec.eq_of_toNat_eq hm
  unfold UnpackedFloat.unpack
  dsimp only
  rw [he', if_neg (by decide), if_pos rfl, dif_pos hm']

/-- A subnormal number has none. -/
theorem unpack_of_subnormal (he : (@unpackExponent .binary64 b).toNat = 0)
    (hm : 0 < (@unpackMantissa .binary64 b).toNat) : UnpackedFloat.unpack .binary64 b =
      .finite (Sign.ofBitVec (@unpackSign .binary64 b)) (@unpackMantissa .binary64 b).toNat
        (-1074) hm := by
  have he' : @unpackExponent .binary64 b = 0#11 := BitVec.eq_of_toNat_eq he
  have hm' : @unpackMantissa .binary64 b ≠ 0#52 := by
    intro h
    rw [h] at hm
    exact absurd hm (by decide)
  unfold UnpackedFloat.unpack
  dsimp only
  rw [he', if_neg (by decide), if_pos rfl, dif_neg hm']
  rfl

/-- A normal number has a leading bit that is not stored. -/
theorem unpack_of_normal (he : (@unpackExponent .binary64 b).toNat ≠ 0)
    (h : (@unpackExponent .binary64 b).toNat ≠ 2047) : UnpackedFloat.unpack .binary64 b =
      .finite (Sign.ofBitVec (@unpackSign .binary64 b))
        (2 ^ 52 + (@unpackMantissa .binary64 b).toNat)
        ((@unpackExponent .binary64 b).toNat - 1075) (by omega) := by
  have h1 : @unpackExponent .binary64 b ≠ -1#_ := fun he => h (by rw [he]; rfl)
  have h0 : @unpackExponent .binary64 b ≠ 0#_ := fun h0 => he (by rw [h0]; rfl)
  have hm : (1#1 ++ @unpackMantissa .binary64 b).toNat =
      2 ^ 52 + (@unpackMantissa .binary64 b).toNat := by
    rw [BitVec.toNat_append, ← Nat.shiftLeft_add_eq_or_of_lt (@unpackMantissa .binary64 b).isLt]
    rfl
  unfold UnpackedFloat.unpack
  dsimp only
  rw [if_neg h1, if_neg h0]
  congr 1

/-! ## Packing what was unpacked -/

theorem log2_implicit {m : Nat} (h : m < 2 ^ 52) : (2 ^ 52 + m).log2 = 52 := by
  rw [Nat.log2_eq_iff (by omega)]
  omega

theorem pack_subnormal (s : Sign) (m : BitVec 52) (hm : 0 < m.toNat) :
    UnpackedFloat.pack .binary64 (.finite s m.toNat (-1074) hm) =
      packComponents .binary64 s 0#_ m := by
  have hlog : m.toNat.log2 < 52 := (Nat.log2_lt (by omega)).2 m.isLt
  have hsub : ¬ m.toNat.log2 + 1 = Format.binary64.mantissaBits := by
    change ¬ m.toNat.log2 + 1 = 53
    omega
  unfold UnpackedFloat.pack
  dsimp only
  rw [if_neg (by decide), if_neg hsub, BitVec.ofNat_toNat, BitVec.setWidth_eq]

/-- A significand with its leading bit is packed into the exponent and mantissa that it came from.
-/
theorem pack_normal (s : Sign) (e : BitVec 11) (m : BitVec 52) (he : e.toNat ≠ 2047) {k : Nat}
    (hk : k = 2 ^ 52 + m.toNat) (h : 0 < k) :
    UnpackedFloat.pack .binary64 (.finite s k (e.toNat - 1075) h) =
      packComponents .binary64 s e m := by
  subst hk
  have hlog : (2 ^ 52 + m.toNat).log2 + 1 = Format.binary64.mantissaBits := by
    rw [log2_implicit m.isLt]
    rfl
  have hexp : ((e.toNat : Int) - 1075 + Format.binary64.exponentBias +
      Format.binary64.mantissaBitsWithoutImplicit).toNat = e.toNat := by
    change ((e.toNat : Int) - 1075 + (1023 : Nat) + (52 : Nat)).toNat = e.toNat
    omega
  have hlt : ¬ 2 ^ Format.binary64.exponentBits ≤ e.toNat + 1 := by
    have := e.isLt
    change ¬ 2 ^ 11 ≤ e.toNat + 1
    omega
  have hm : BitVec.ofNat 52 (2 ^ 52 + m.toNat) = m := by
    apply BitVec.eq_of_toNat_eq
    have := m.isLt
    rw [BitVec.toNat_ofNat]
    omega
  unfold UnpackedFloat.pack
  dsimp only
  rw [hexp, if_neg hlt, if_pos hlog, hm, BitVec.ofNat_toNat, BitVec.setWidth_eq]

/-- Packing gives the bits back of all that is a number. -/
theorem pack_unpack (h : (@unpackExponent .binary64 b).toNat ≠ 2047) :
    UnpackedFloat.pack .binary64 (UnpackedFloat.unpack .binary64 b) = b := by
  refine Eq.trans ?_ (packComponents_unpack b)
  by_cases he : (@unpackExponent .binary64 b).toNat = 0
  · have he' : @unpackExponent .binary64 b = 0#11 := BitVec.eq_of_toNat_eq he
    rw [he']
    rcases Nat.eq_zero_or_pos (@unpackMantissa .binary64 b).toNat with hm | hm
    · have hm' : @unpackMantissa .binary64 b = 0#52 := BitVec.eq_of_toNat_eq hm
      rw [unpack_of_zero he hm, hm']
      rfl
    · rw [unpack_of_subnormal he hm]
      exact pack_subnormal _ _ hm
  · rw [unpack_of_normal he h]
    exact pack_normal _ _ _ h rfl _

/-! ## Finite doubles -/

theorem signBit_eq : signBit = 2 ^ 63 := rfl

theorem infinity_eq : infinity = 2047 * 2 ^ 52 := rfl

/-- Only the greatest exponent stands for infinities and for no number. -/
theorem isFinite_unpack (b : BitVec 64) : (UnpackedFloat.unpack .binary64 b).isFinite = true ↔
    (@unpackExponent .binary64 b).toNat ≠ 2047 := by
  by_cases h : (@unpackExponent .binary64 b).toNat = 2047
  · have h1 : @unpackExponent .binary64 b = -1#_ := BitVec.eq_of_toNat_eq h
    refine iff_of_false ?_ fun hne => hne h
    unfold UnpackedFloat.unpack
    dsimp only
    rw [if_pos h1]
    split <;> exact Bool.false_ne_true
  · refine iff_of_true ?_ h
    by_cases he : (@unpackExponent .binary64 b).toNat = 0
    · rcases Nat.eq_zero_or_pos (@unpackMantissa .binary64 b).toNat with hm | hm
      · rw [unpack_of_zero he hm]
        rfl
      · rw [unpack_of_subnormal he hm]
        rfl
    · rw [unpack_of_normal he h]
      rfl

theorem exponent_ne_iff (u : UInt64) : (@unpackExponent .binary64 u.toBitVec).toNat ≠ 2047 ↔
    u.toNat % signBit < infinity := by
  rw [toNat_unpackExponent, signBit_eq, infinity_eq]
  change u.toNat / 2 ^ 52 % 2 ^ 11 ≠ 2047 ↔ _
  omega

theorem isFinite_iff {x : Float} : x.isFinite = true ↔ magnitude x < infinity :=
  (isFinite_unpack _).trans (exponent_ne_iff _)

theorem isNaN_of_isFinite {x : Float} (h : x.isFinite = true) : x.isNaN = false := by
  change x.toModel.unpack.isNaN = false
  replace h : x.toModel.unpack.isFinite = true := h
  cases hu : x.toModel.unpack with
  | notANumber =>
    rw [hu] at h
    cases h
  | infinity s => rfl
  | zero s => rfl
  | finite s m e hm => rfl

theorem toBits_ofBits {u : UInt64} (h : u.toNat % signBit < infinity) :
    (Float.ofBits u).toBits = u := by
  have := pack_unpack ((exponent_ne_iff u).2 h)
  change UInt64.ofBitVec
    (UnpackedFloat.pack .binary64 (UnpackedFloat.unpack .binary64 u.toBitVec)) = u
  rw [this]

theorem toBits_injective {x y : Float} (h : x.toBits = y.toBits) : x = y := by
  obtain ⟨⟨_, _⟩⟩ := x
  obtain ⟨⟨_, _⟩⟩ := y
  cases h
  rfl

variable {negative : Bool} {bits : Nat} {x : Float}

theorem toNat_toBits_ofMagnitude (h : bits < infinity) :
    (ofMagnitude negative bits).toBits.toNat = bits + if negative then signBit else 0 := by
  have hu : (UInt64.ofNat (min bits infinity + if negative then signBit else 0)).toNat =
      bits + if negative then signBit else 0 := by
    rw [Nat.min_eq_left (Nat.le_of_lt h), UInt64.toNat_ofNat']
    rw [infinity_eq] at h
    cases negative <;> simp only [Bool.false_eq_true, if_false, if_true, signBit_eq] <;> omega
  rw [ofMagnitude, toBits_ofBits, hu]
  rw [hu, infinity_eq]
  rw [infinity_eq] at h
  cases negative <;> simp only [Bool.false_eq_true, if_false, if_true, signBit_eq] <;> omega

theorem magnitude_ofMagnitude (h : bits < infinity) :
    magnitude (ofMagnitude negative bits) = bits := by
  rw [magnitude, toNat_toBits_ofMagnitude h]
  rw [infinity_eq] at h
  cases negative <;> simp only [Bool.false_eq_true, if_false, if_true, signBit_eq] <;> omega

theorem isFinite_ofMagnitude (h : bits < infinity) :
    (ofMagnitude negative bits).isFinite = true := by
  rw [isFinite_iff, magnitude_ofMagnitude h]
  exact h

/-- A finite double is given back by its sign and its magnitude. -/
theorem ofMagnitude_magnitude (h : x.isFinite = true) :
    ofMagnitude (isNegative x) (magnitude x) = x := by
  have hlt := x.toBits.toNat_lt
  refine toBits_injective (UInt64.toNat_inj.1 ?_)
  rw [toNat_toBits_ofMagnitude (isFinite_iff.1 h), magnitude, isNegative, signBit_eq]
  by_cases hn : 2 ^ 63 ≤ x.toBits.toNat
  · simp only [hn, decide_true, if_true]
    omega
  · simp only [hn, decide_false, Bool.false_eq_true, if_false]
    omega

/-! ## Equality of doubles -/

/-- Finite numbers are equal to themselves. -/
theorem beq_self (h : x.isFinite = true) : (x == x) = true := by
  change (x.toModel.unpack.compare x.toModel.unpack == some .eq) = true
  replace h : x.toModel.unpack.isFinite = true := h
  cases hu : x.toModel.unpack with
  | infinity s =>
    rw [hu] at h
    cases h
  | notANumber =>
    rw [hu] at h
    cases h
  | zero s => rfl
  | finite s m e hm =>
    have hc : (compare e e).then (compare m m) = .eq := by simp
    cases s with
    | positive =>
      change (some ((compare e e).then (compare m m)) == some .eq) = true
      rw [hc]
      rfl
    | negative =>
      change (some ((compare e e).then (compare m m)).swap == some .eq) = true
      rw [hc]
      rfl

/-- What equals a zero equals the positive one, too. -/
theorem zero_beq (h : (x == 0) = true) : (ofMagnitude false 0 == x) = true := by
  have hz : (0 : Float).toModel.unpack = .zero .positive := by rfl
  have hz' : (ofMagnitude false 0).toModel.unpack = .zero .positive := by rfl
  replace h : (x.toModel.unpack.compare (0 : Float).toModel.unpack == some .eq) = true := h
  change ((ofMagnitude false 0).toModel.unpack.compare x.toModel.unpack == some .eq) = true
  rw [hz] at h
  rw [hz']
  cases hu : x.toModel.unpack with
  | zero s => rfl
  | infinity s =>
    rw [hu] at h
    cases s <;> cases h
  | notANumber =>
    rw [hu] at h
    cases h
  | finite s m e hm =>
    rw [hu] at h
    cases s <;> cases h

end Lineage.Number
