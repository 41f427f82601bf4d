import TangledPrograms.Decimal.Shortest
import Mathlib.Data.Nat.Digits.Defs
import Mathlib.Tactic.Ring

/-!
# Shortest decimals are short

The place of a float's point bounds the float by a power of ten, and so the whole numbers that are
tried on a grid of so many digits. The shortest decimal has seventeen digits at most, or is the next
power of ten; it fits into a 64-bit word.
-/

namespace TangledPrograms.Decimal

theorem lt_pow_length_toDigits (n : ℕ) : n < 10 ^ (Nat.toDigits 10 n).length :=
  (Nat.length_toDigits_le_iff (by decide) (List.length_pos_iff.2 Nat.toDigits_ne_nil)).1
    (Nat.le_refl _)

theorem lt_of_leadingZeros (value unit : ℕ) {steps : ℕ} (h : leadingZeros value unit steps ≠ 0) :
    value * 10 ^ (leadingZeros value unit steps - 1) < unit := by
  induction steps generalizing value with
  | zero => exact absurd rfl h
  | succ steps ih =>
    rw [leadingZeros] at h ⊢
    split at h
    · exact absurd rfl h
    · rename_i hlt
      rw [if_neg hlt, Nat.add_sub_cancel]
      by_cases hzero : leadingZeros (value * 10) unit steps = 0
      · rw [hzero, Nat.pow_zero, Nat.mul_one]
        exact Nat.not_le.1 hlt
      · have hnext := ih (value * 10) hzero
        have hsucc : leadingZeros (value * 10) unit steps =
            leadingZeros (value * 10) unit steps - 1 + 1 := by omega
        calc value * 10 ^ leadingZeros (value * 10) unit steps
            = value * 10 * 10 ^ (leadingZeros (value * 10) unit steps - 1) := by
              rw [hsucc, Nat.pow_succ, Nat.add_sub_cancel]
              ring
          _ < unit := hnext

namespace Interval

variable {i : Interval}

/-- The float lies below the power of ten of its place. -/
theorem lt_pointPlace (hunit : 0 < i.unit) :
    i.value * 10 ^ (-i.pointPlace).toNat < i.unit * 10 ^ i.pointPlace.toNat := by
  rw [pointPlace]
  split
  · have hdigits : i.value / i.unit < 10 ^ (Nat.toDigits 10 (i.value / i.unit)).length :=
      lt_pow_length_toDigits _
    rw [Nat.div_lt_iff_lt_mul hunit] at hdigits
    simpa [Nat.mul_comm] using hdigits
  · rename_i hlt
    have hpos : leadingZeros i.value i.unit 400 ≠ 0 := by
      rw [leadingZeros, if_neg hlt]
      exact Nat.succ_ne_zero _
    have hzeros := lt_of_leadingZeros i.value i.unit hpos
    have hplace : (-(1 - (leadingZeros i.value i.unit 400 : ℤ))).toNat =
        leadingZeros i.value i.unit 400 - 1 := by omega
    have hnone : (1 - (leadingZeros i.value i.unit 400 : ℤ)).toNat = 0 := by omega
    rw [hplace, hnone, Nat.pow_zero, Nat.mul_one]
    exact hzeros

/-- On the grid of so many digits the float lies below the power of ten. -/
theorem lt_inSteps (hunit : 0 < i.unit) (digits : ℕ) :
    (i.inSteps (i.pointPlace - digits)).value < (i.inSteps (i.pointPlace - digits)).unit * 10 ^ digits := by
  have hplace := lt_pointPlace hunit
  generalize i.pointPlace = place at hplace
  change i.value * 10 ^ (-(place - digits)).toNat < i.unit * 10 ^ (place - digits).toNat * 10 ^ digits
  have hpow : (-place).toNat + ((place - digits).toNat + digits) =
      place.toNat + (-(place - digits)).toNat := by omega
  refine Nat.lt_of_mul_lt_mul_right (a := 10 ^ (-place).toNat) ?_
  calc i.value * 10 ^ (-(place - digits)).toNat * 10 ^ (-place).toNat
      = i.value * 10 ^ (-place).toNat * 10 ^ (-(place - digits)).toNat := Nat.mul_right_comm ..
    _ < i.unit * 10 ^ place.toNat * 10 ^ (-(place - digits)).toNat :=
      Nat.mul_lt_mul_of_pos_right hplace (Nat.pow_pos (by decide))
    _ = i.unit * 10 ^ ((-place).toNat + ((place - digits).toNat + digits)) := by
      rw [Nat.mul_assoc, ← Nat.pow_add, hpow]
    _ = i.unit * 10 ^ (place - digits).toNat * 10 ^ digits * 10 ^ (-place).toNat := by ring

theorem le_of_nearestWhole? {tie : Tie} {n : ℕ} (h : i.nearestWhole? tie = some n) :
    n ≤ i.value / i.unit + 1 := by
  simp only [nearestWhole?] at h
  split at h
  · repeat' split at h
    all_goals
      cases h
      omega
  · cases h
    omega
  · cases h
    omega
  · cases h

/-- What is found has no more digits than the last grid that is tried, or is the next power of ten. -/
theorem coefficient_search_le (hunit : 0 < i.unit) (tie : Tie) (steps : ℕ) (digits : ℕ) :
    (i.search tie i.pointPlace digits steps).coefficient ≤ 10 ^ (digits + steps - 1) := by
  induction steps generalizing digits with
  | zero => exact Nat.zero_le _
  | succ steps ih =>
    simp only [search]
    split
    · rename_i n hn
      have hvalue := lt_inSteps hunit digits
      have hunit' : 0 < (i.inSteps (i.pointPlace - digits)).unit :=
        Nat.mul_pos hunit (Nat.pow_pos (by decide))
      have hbelow := (Nat.div_lt_iff_lt_mul hunit').2 ((Nat.mul_comm ..).symm ▸ hvalue)
      have hle := le_of_nearestWhole? hn
      calc n ≤ 10 ^ digits := by omega
        _ ≤ 10 ^ (digits + (steps + 1) - 1) := Nat.pow_le_pow_right (by decide) (by omega)
    · refine (ih (digits + 1)).trans (Nat.le_of_eq ?_)
      congr 1
      omega

end Interval

theorem Scaled.coefficient_trim_le (s : Scaled) (steps : ℕ) :
    (Scaled.trim steps s).coefficient ≤ s.coefficient := by
  induction steps generalizing s with
  | zero => exact Nat.le_refl _
  | succ steps ih =>
    rw [trim]
    split
    · exact (ih _).trans (Nat.div_le_self _ _)
    · exact Nat.le_refl _

theorem coefficient_shortest_le (tie : Tie) (x : Float) :
    (shortest tie x).coefficient ≤ 10 ^ 17 := by
  simp only [shortest]
  split
  · exact Nat.zero_le _
  · refine (Scaled.coefficient_trim_le _ _).trans (Interval.coefficient_search_le ?_ tie 17 1)
    change 0 < 4 <<< _
    rw [Nat.shiftLeft_eq]
    exact Nat.mul_pos (by decide) (Nat.two_pow_pos _)

end TangledPrograms.Decimal
