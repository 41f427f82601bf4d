import TangledPrograms.Random.Uniform
import TangledPrograms.Proofs.Number.Order
import Mathlib

/-!
# Uniform fractions

The upper 53 bits of a word have an exact binary form as a whole number, and scaling it by `2 ^ -53`
moves the exponent only. So every fraction lies in `[0, 1)`; the word of zeros stands for the
smallest one, and between the one that the word of ones stands for and `1` there is no number.
-/

namespace TangledPrograms.Number

open Float.Model (UnpackedFloat Format totalExponent)
open Float.Model.UnpackedFloat

/-- The leading bit of a mantissa is not stored. -/
private theorem toNat_implicit (x : BitVec 52) : (1#1 ++ x).toNat = 2 ^ 52 + x.toNat := by
  rw [BitVec.toNat_append, ← Nat.shiftLeft_add_eq_or_of_lt x.isLt]
  rfl

section

variable {s : Sign} {m : ℕ} {e : ℤ} (hlow : 2 ^ 52 ≤ m) (hhigh : m < 2 ^ 53)

/-- Places that hold zeros are shifted out without a trace. -/
private theorem shiftRight_exact (k m : ℕ) :
    (⟨m * 2 ^ k, false, false⟩ : ExtendedMantissa) >>> k = ⟨m, false, false⟩ := by
  induction k generalizing m with
  | zero =>
    rw [Nat.pow_zero, Nat.mul_one]
    rfl
  | succ k ih =>
    have hm : m * 2 ^ (k + 1) = m * 2 * 2 ^ k := by rw [Nat.pow_succ', Nat.mul_assoc]
    have hstep : ∀ x : ExtendedMantissa, x >>> (k + 1) = (x >>> k).shiftRightOne := fun _ => rfl
    rw [hstep, hm, ih]
    simp [ExtendedMantissa.shiftRightOne]

include hlow hhigh

private theorem log2_scaled (k : ℕ) : (m * 2 ^ k).log2 = 52 + k := by
  have hpos : m * 2 ^ k ≠ 0 := (Nat.mul_pos (by omega) (Nat.two_pow_pos k)).ne'
  rw [Nat.log2_eq_iff hpos, Nat.pow_add, show 52 + k + 1 = 53 + k by omega, Nat.pow_add 2 53 k]
  exact ⟨Nat.mul_le_mul_right _ hlow, Nat.mul_lt_mul_of_pos_right hhigh (Nat.two_pow_pos k)⟩

private theorem targetExponent_scaled (k : ℕ) (he : -1074 ≤ e) :
    Format.binary64.targetExponent (totalExponent (m * 2 ^ k) (e - k)) = e := by
  simp only [Format.targetExponent, totalExponent, log2_scaled hlow hhigh, Format.mantissaBits,
    Format.minExponent]
  omega

/-- A mantissa of full width with zeros behind it is rounded to itself. -/
private theorem roundWithAccuracy_scaled (k : ℕ) (he : -1074 ≤ e) :
    roundWithAccuracy Format.binary64 s (m * 2 ^ k) (e - k) .exact =
      .finite s m e (by omega) := by
  have hshift : ∀ k : ℕ, shiftToTargetExponent Format.binary64 (m * 2 ^ k) (e - k) .exact =
      (⟨m, false, false⟩, e) := fun k => by
    have hk : (e - (e - k)).toNat = k := by omega
    simp only [shiftToTargetExponent, shiftToExponent, targetExponent_scaled hlow hhigh k he, hk,
      ExtendedMantissa.ofMantissaAndAccuracy, shiftRight_exact, Int.sub_add_cancel]
  have hround : ExtendedMantissa.roundedMantissa ⟨m, false, false⟩ = m := rfl
  have hkeep : shiftToTargetExponent Format.binary64 m e .exact = (⟨m, false, false⟩, e) := by
    simpa using hshift 0
  simp only [roundWithAccuracy, hshift k, hround, hkeep]
  rw [dif_neg (by omega)]

/-- A number in normal form is kept as it is. -/
private theorem unpack_pack (he : -1074 ≤ e) (he' : e ≤ 971) :
    (Float.Model.pack (.finite s m e (by omega))).unpack = .finite s m e (by omega) := by
  have hlog : m.log2 = 52 := by simpa using log2_scaled hlow hhigh 0
  have hbiased : (e + (1023 : ℕ) + (52 : ℕ)).toNat = (e + 1075).toNat := by omega
  have hfields : UnpackedFloat.pack Format.binary64 (.finite s m e (by omega)) =
      packComponents Format.binary64 s (BitVec.ofNat 11 (e + 1075).toNat) (BitVec.ofNat 52 m) := by
    simp only [UnpackedFloat.pack, Format.exponentBias, hlog, Nat.reducePow, Nat.reduceSub, hbiased]
    rw [if_neg (by omega)]
    exact if_pos rfl
  have hexponent : (BitVec.ofNat 11 (e + 1075).toNat).toNat = (e + 1075).toNat := by
    rw [BitVec.toNat_ofNat]
    omega
  have hmantissa : (1#1 ++ BitVec.ofNat 52 m).toNat = m := by
    rw [toNat_implicit, BitVec.toNat_ofNat]
    omega
  have hinfinite : BitVec.ofNat 11 (e + 1075).toNat ≠ -1#11 := fun h => by
    rw [h] at hexponent
    change 2047 = _ at hexponent
    omega
  have hsubnormal : BitVec.ofNat 11 (e + 1075).toNat ≠ 0#11 := fun h => by
    rw [h] at hexponent
    change 0 = _ at hexponent
    omega
  change UnpackedFloat.unpack Format.binary64 (UnpackedFloat.pack Format.binary64 _) = _
  rw [hfields]
  simp only [UnpackedFloat.unpack, unpackMantissa_packComponents, unpackExponent_packComponents,
    unpackSign_packComponents, Sign.ofBitVec_toBitVec, if_neg hinfinite, if_neg hsubnormal,
    hexponent, hmantissa]
  congr 1
  change ((e + 1075).toNat : ℤ) - (1023 + 52) = e
  omega

end

section

variable {w : UInt64} {k : ℕ} (hlow : 2 ^ k ≤ (w >>> 11).toNat)
  (hhigh : (w >>> 11).toNat < 2 ^ (k + 1)) (hk : k ≤ 52)
include hlow hhigh hk

private theorem widened : 2 ^ 52 ≤ (w >>> 11).toNat * 2 ^ (52 - k) ∧
    (w >>> 11).toNat * 2 ^ (52 - k) < 2 ^ 53 := by
  have h52 : 2 ^ 52 = 2 ^ k * 2 ^ (52 - k) := by rw [← Nat.pow_add, Nat.add_sub_cancel' hk]
  have h53 : 2 ^ 53 = 2 ^ (k + 1) * 2 ^ (52 - k) := by
    rw [← Nat.pow_add, show k + 1 + (52 - k) = 53 by omega]
  rw [h52, h53]
  exact ⟨Nat.mul_le_mul_right _ hlow, Nat.mul_lt_mul_of_pos_right hhigh (Nat.two_pow_pos _)⟩

private theorem unpack_numerator : ((w >>> 11).toFloat).toModel.unpack =
    .finite .positive ((w >>> 11).toNat * 2 ^ (52 - k)) ((k : ℤ) - 52)
      (by have := (widened hlow hhigh hk).1; omega) := by
  have hpos : 0 < (w >>> 11).toNat := lt_of_lt_of_le (Nat.two_pow_pos k) hlow
  have hlog : (w >>> 11).toNat.log2 = k := (Nat.log2_eq_iff hpos.ne').2 ⟨hlow, hhigh⟩
  obtain ⟨hwide, hwide'⟩ := widened hlow hhigh hk
  have htarget : Format.binary64.targetExponent (totalExponent (w >>> 11).toNat 0) = k - 52 := by
    simp only [Format.targetExponent, totalExponent, hlog, Format.mantissaBits, Format.minExponent]
    omega
  have hround : UnpackedFloat.round Format.binary64 .positive (w >>> 11).toNat 0 =
      .finite .positive ((w >>> 11).toNat * 2 ^ (52 - k)) (k - 52) (by omega) := by
    have hplaces : (0 - ((k : ℤ) - 52)).toNat = 52 - k := by omega
    have hexponent : 0 - ((52 - k : ℕ) : ℤ) = k - 52 := by omega
    have hexact : roundWithAccuracy Format.binary64 .positive
        ((w >>> 11).toNat * 2 ^ (52 - k)) (k - 52) .exact =
        .finite .positive ((w >>> 11).toNat * 2 ^ (52 - k)) (k - 52) (by omega) := by
      simpa using roundWithAccuracy_scaled hwide hwide' 0 (show -1074 ≤ (k : ℤ) - 52 by omega)
    simp only [UnpackedFloat.round, htarget, decreaseExponent, hplaces, hexponent, Nat.shiftLeft_eq,
      hexact]
  have hsign : compare ((w >>> 11).toNat : ℤ) 0 = .gt := Int.compare_eq_gt.2 (by omega)
  change (Float.Model.pack (UnpackedFloat.normalize Format.binary64 ((w >>> 11).toNat : ℤ) 0
    .positive)).unpack = _
  simp only [UnpackedFloat.normalize, hsign, Int.toNat_natCast, hround]
  exact unpack_pack hwide hwide' (by omega) (by omega)

/-- The exact form of a fraction that is not zero. -/
private theorem unpack_fraction : (Draw.fraction w).toModel.unpack =
    .finite .positive ((w >>> 11).toNat * 2 ^ (52 - k)) ((k : ℤ) - 105)
      (by have := (widened hlow hhigh hk).1; omega) := by
  obtain ⟨hwide, hwide'⟩ := widened hlow hhigh hk
  have hscale : (Float.ofBits 0x3ca0000000000000).toModel.unpack =
      .finite .positive (2 ^ 52) (-105) (by decide) := by rfl
  change (Float.Model.pack (UnpackedFloat.mul Format.binary64 ((w >>> 11).toFloat).toModel.unpack
    (Float.ofBits 0x3ca0000000000000).toModel.unpack)).unpack = _
  rw [unpack_numerator hlow hhigh hk, hscale]
  have hexponent : ((k : ℤ) - 52) + -105 = (k - 105) - (52 : ℕ) := by omega
  change (Float.Model.pack (roundWithAccuracy Format.binary64 .positive
    ((w >>> 11).toNat * 2 ^ (52 - k) * 2 ^ 52) ((k : ℤ) - 52 + -105) .exact)).unpack = _
  rw [hexponent, roundWithAccuracy_scaled hwide hwide' 52 (by omega)]
  exact unpack_pack hwide hwide' (by omega) (by omega)

end

/-- A fraction is zero or a positive number below one, which has the exponent `-52`. -/
private theorem fraction_cases (w : UInt64) : Draw.fraction w = 0.0 ∨
    ∃ m e hm, (Draw.fraction w).toModel.unpack = .finite .positive m e hm ∧ e < -52 := by
  have hbound : (w >>> 11).toNat < 2 ^ 53 := by
    rw [UInt64.toNat_shiftRight, Nat.shiftRight_eq_div_pow]
    change w.toNat / 2 ^ 11 < 2 ^ 53
    have := w.toNat_lt
    omega
  rcases Nat.eq_zero_or_pos (w >>> 11).toNat with hzero | hpos
  · left
    have hw : w >>> 11 = 0 := UInt64.toNat_inj.1 hzero
    rw [Draw.fraction, hw]
    rfl
  · right
    obtain ⟨hlow, hhigh⟩ := (Nat.log2_eq_iff hpos.ne').1 rfl
    have hk : (w >>> 11).toNat.log2 < 53 := (Nat.log2_lt hpos.ne').2 hbound
    exact ⟨_, _, _, unpack_fraction hlow hhigh (by omega), by omega⟩

@[simp] theorem isFinite_fraction (w : UInt64) : (Draw.fraction w).isFinite = true := by
  rcases fraction_cases w with h | ⟨m, e, hm, h, -⟩
  · rw [h]
    exact isFinite_zero
  · change UnpackedFloat.isFinite (Draw.fraction w).toModel.unpack = true
    rw [h]
    rfl

theorem zero_le_fraction (w : UInt64) : 0.0 ≤ Draw.fraction w := by
  rw [le_iff_rank (by decide) (isNaN_eq_false (isFinite_fraction w))]
  rcases fraction_cases w with h | ⟨m, e, hm, h, -⟩
  · rw [h]
  · rw [h]
    exact Prod.Lex.toLex_le_toLex.2 (.inl Int.zero_lt_one)

private theorem unpack_one :
    (1.0 : Float).toModel.unpack = .finite .positive (2 ^ 52) (-52) (by decide) := rfl

theorem fraction_lt_one (w : UInt64) : Draw.fraction w < 1.0 := by
  rw [lt_iff_rank (isNaN_eq_false (isFinite_fraction w)) (by decide)]
  rw [unpack_one]
  rcases fraction_cases w with h | ⟨m, e, hm, h, he⟩
  · rw [h]
    exact Prod.Lex.toLex_lt_toLex.2 (.inl (by decide))
  · rw [h]
    exact Prod.Lex.toLex_lt_toLex.2 (.inr ⟨rfl, Prod.Lex.toLex_lt_toLex.2 (.inl he)⟩)

/-- A mantissa fills its 53 places unless the exponent is the least one. -/
private theorem mantissa_bounds {x : Float} {s : Sign} {m : ℕ} {e : ℤ} {hm : 0 < m}
    (h : x.toModel.unpack = .finite s m e hm) : m < 2 ^ 53 ∧ (2 ^ 52 ≤ m ∨ e = -1074) := by
  change UnpackedFloat.unpack Format.binary64 x.toModel.toBits.toBitVec = _ at h
  have hlast := (@unpackMantissa Format.binary64 x.toModel.toBits.toBitVec).isLt
  rw [UnpackedFloat.unpack] at h
  split at h
  · split at h <;> cases h
  · split at h
    · rename_i hzero
      split at h
      · cases h
      · rw [hzero] at h
        cases h
        change _ < 2 ^ 52 at hlast
        exact ⟨by omega, .inr rfl⟩
    · cases h
      rw [toNat_implicit]
      change _ < 2 ^ 52 at hlast
      exact ⟨by omega, .inl (by omega)⟩

/-- No number lies between the largest fraction and one. -/
theorem le_fraction_of_lt_one {x : Float} (hx : x.isNaN = false) (h : x < 1.0) :
    x ≤ Draw.fraction 0xffffffffffffffff := by
  have hlast : (Draw.fraction 0xffffffffffffffff).toModel.unpack =
      .finite .positive (2 ^ 53 - 1) (-53) (by decide) := by rfl
  rw [lt_iff_rank hx (by decide), unpack_one] at h
  rw [le_iff_rank hx (by decide), hlast]
  rcases hu : x.toModel.unpack with ⟨_ | _⟩ | _ | _ | ⟨_ | _, m, e, hm⟩
  · exact Prod.Lex.toLex_le_toLex.2 (.inl (by decide))
  · rw [hu] at h
    exact absurd h (by decide)
  · exact Prod.Lex.toLex_le_toLex.2 (.inl (by decide))
  · exact Prod.Lex.toLex_le_toLex.2 (.inl (by decide))
  · exact Prod.Lex.toLex_le_toLex.2 (.inl (show (-1 : ℤ) < 1 by decide))
  · rw [hu] at h
    obtain ⟨hhigh, hlow⟩ := mantissa_bounds hu
    have h : e < -52 ∨ e = -52 ∧ (m : ℤ) < (2 ^ 52 : ℕ) := by
      simpa [rank, Prod.Lex.toLex_lt_toLex] using h
    have hle : e < -53 ∨ e = -53 ∧ (m : ℤ) ≤ (2 ^ 53 - 1 : ℕ) := by omega
    exact Prod.Lex.toLex_le_toLex.2 (.inr ⟨rfl, Prod.Lex.toLex_le_toLex.2 hle⟩)

end TangledPrograms.Number
