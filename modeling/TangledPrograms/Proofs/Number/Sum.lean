import TangledPrograms.Binary64
import TangledPrograms.Proofs.Settings.Accepted
import Mathlib

/-!
# Sums that are cut to the unit interval

Rounding and packing never make a NaN, so a finite number plus one that is not NaN is not NaN, and it
is compared with the ends of the unit interval like any other. Hence what moves a number of the
interval and cuts it again leaves a number of the interval.
-/

namespace TangledPrograms

namespace Number

open Float.Model (UnpackedFloat Format)
open Float.Model.UnpackedFloat

/-- A finite number that is too large is packed as an infinity, never as a NaN. -/
theorem isNaN_unpack_pack (u : UnpackedFloat) : (Float.Model.pack u).unpack.isNaN = u.isNaN := by
  cases u with
  | infinity s => cases s <;> decide
  | notANumber => decide
  | zero s => cases s <;> decide
  | finite s m e hm =>
    change (UnpackedFloat.unpack Format.binary64 (UnpackedFloat.pack Format.binary64 _)).isNaN = false
    simp only [UnpackedFloat.pack]
    split
    · cases s <;> decide
    · rename_i hfits
      have hnone : ∀ exponent : BitVec 11, exponent ≠ -1#11 → ∀ mantissa : BitVec 52,
          (UnpackedFloat.unpack Format.binary64
            (packComponents Format.binary64 s exponent mantissa)).isNaN = false := by
        intro exponent hexponent mantissa
        simp only [UnpackedFloat.unpack, unpackExponent_packComponents]
        rw [if_neg hexponent]
        split
        · split <;> rfl
        · rfl
      have hbelow {n : ℕ} (hn : ¬ 2 ^ 11 ≤ n + 1) : BitVec.ofNat 11 n ≠ -1#11 := by
        intro hones
        have hvalue : n % 2 ^ 11 = 2 ^ 11 - 1 := congrArg BitVec.toNat hones
        omega
      split
      · exact hnone _ (hbelow hfits) _
      · exact hnone _ (by decide) _

theorem isNaN_normalize (m e : ℤ) (s : Sign) :
    (UnpackedFloat.normalize Format.binary64 m e s).isNaN = false := by
  have hround : ∀ (s : Sign) (m : ℕ) (e : ℤ),
      (UnpackedFloat.round Format.binary64 s m e).isNaN = false := by
    intro s m e
    simp only [UnpackedFloat.round, roundWithAccuracy]
    split <;> rfl
  rw [UnpackedFloat.normalize]
  split
  · exact hround ..
  · rfl
  · exact hround ..

/-- Only two infinities of different sign have no sum. -/
theorem isNaN_add {x y : Float} (hx : x.isFinite = true) (hy : y.isNaN = false) :
    (x + y).isNaN = false := by
  change UnpackedFloat.isFinite x.toModel.unpack = true at hx
  change UnpackedFloat.isNaN y.toModel.unpack = false at hy
  change (Float.Model.pack (UnpackedFloat.add _ x.toModel.unpack y.toModel.unpack)).unpack.isNaN = _
  rw [isNaN_unpack_pack]
  rcases hu : x.toModel.unpack with _ | _ | _ | ⟨s₁, m₁, e₁, h₁⟩ <;> rw [hu] at hx
  · cases hx
  · cases hx
  · rcases hv : y.toModel.unpack with _ | _ | _ | _ <;> rw [hv] at hy
    · rfl
    · cases hy
    · rw [UnpackedFloat.add]
      split <;> rfl
    · rfl
  · rcases hv : y.toModel.unpack with _ | _ | _ | ⟨s₂, m₂, e₂, h₂⟩ <;> rw [hv] at hy
    · rfl
    · cases hy
    · rfl
    · exact isNaN_normalize ..

end Number

namespace Binary64

/-- From `0` to `1`, both included; NaN is not. -/
def InUnit (x : Binary64) : Prop := 0.0 ≤ x.toFloat ∧ x.toFloat ≤ 1.0

variable {x : Binary64} {y : Float}

theorem inUnit_iff : x.InUnit ↔ isProbability x.toFloat = true := by
  simp [InUnit, isProbability]

/-- Keeping a number makes no NaN of it, and of a NaN nothing else. -/
theorem isNaN_toFloat_ofFloat (y : Float) : (ofFloat y).toFloat.isNaN = y.isNaN :=
  Number.isNaN_unpack_pack y.toModel.unpack

theorem InUnit.isNaN_add (hx : x.InUnit) (hy : y.isNaN = false) : (x.add y).toFloat.isNaN = false := by
  have hfinite := isFinite_of_isProbability (inUnit_iff.1 hx)
  have hsum := Number.isNaN_add hfinite hy
  rw [add, Number.isNaN_eq_false hfinite, if_neg Bool.false_ne_true]
  simp only [hsum, if_neg Bool.false_ne_true]
  rw [isNaN_toFloat_ofFloat, hsum]

theorem inUnit_clampUnit (hx : x.toFloat.isNaN = false) : x.clampUnit.InUnit := by
  rw [clampUnit]
  split
  · exact ⟨by decide, by decide⟩
  · rename_i hlow
    split
    · exact ⟨by decide, by decide⟩
    · rename_i hhigh
      rw [Number.lt_iff_rank hx (by decide), not_lt] at hlow
      rw [Number.lt_iff_rank (by decide) hx, not_lt] at hhigh
      exact ⟨(Number.le_iff_rank (by decide) hx).2 hlow, (Number.le_iff_rank hx (by decide)).2 hhigh⟩

/-- What noise has moved is cut to the interval again. -/
theorem InUnit.move (hx : x.InUnit) (hy : y.isNaN = false) : (x.add y).clampUnit.InUnit :=
  inUnit_clampUnit (hx.isNaN_add hy)

end Binary64

end TangledPrograms
