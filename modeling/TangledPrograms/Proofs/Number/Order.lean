import TangledPrograms.Machine.Scalar
import Mathlib.Data.Int.Order.Basic
import Mathlib.Data.Prod.Lex
import Mathlib.Order.Compare

/-!
# The order of numbers and the finite ones

A number that is not NaN has a rank in a linear order, and comparisons compare ranks: the two zeros
share one, all else has its own. Whatever the machine normalizes is finite, so comparing it never
meets a NaN.
-/

namespace TangledPrograms.Number

open Float.Model (UnpackedFloat)

/-- The place of a number among all numbers: its class from the negative infinity to the positive
one, then its exponent, then its mantissa. -/
def rank : UnpackedFloat → ℤ ×ₗ ℤ ×ₗ ℤ
  | .infinity .negative => toLex (-2, toLex (0, 0))
  | .finite .negative m e _ => toLex (-1, toLex (-e, -m))
  | .notANumber | .zero _ => toLex (0, toLex (0, 0))
  | .finite .positive m e _ => toLex (1, toLex (e, m))
  | .infinity .positive => toLex (2, toLex (0, 0))

theorem rank_negative_le (a : UnpackedFloat) : rank (.infinity .negative) ≤ rank a := by
  rcases a with ⟨_ | _⟩ | _ | _ | ⟨_ | _, m, e, h⟩ <;>
  dsimp only [rank] <;>
  simp [Prod.Lex.toLex_le_toLex]

theorem le_rank_positive (a : UnpackedFloat) : rank a ≤ rank (.infinity .positive) := by
  rcases a with ⟨_ | _⟩ | _ | _ | ⟨_ | _, m, e, h⟩ <;>
  dsimp only [rank] <;>
  simp [Prod.Lex.toLex_le_toLex]

private theorem magnitude_lt (e₁ e₂ : ℤ) (m₁ m₂ : ℕ) :
    (compare e₁ e₂).then (compare m₁ m₂) = .lt ↔ e₁ < e₂ ∨ e₁ = e₂ ∧ m₁ < m₂ := by
  rw [Ordering.then_eq_lt, compare_lt_iff_lt, compare_eq_iff_eq, compare_lt_iff_lt]

private theorem magnitude_gt (e₁ e₂ : ℤ) (m₁ m₂ : ℕ) :
    (compare e₁ e₂).then (compare m₁ m₂) = .gt ↔ e₂ < e₁ ∨ e₁ = e₂ ∧ m₂ < m₁ := by
  rw [Ordering.then_eq_gt, compare_gt_iff_gt, compare_eq_iff_eq, compare_gt_iff_gt]

private theorem ne_notANumber {a : UnpackedFloat} (ha : a.isNaN = false) : a ≠ .notANumber := by
  rintro rfl
  exact absurd ha (by decide)

theorem compare_eq_lt_iff {a b : UnpackedFloat} (ha : a.isNaN = false) (hb : b.isNaN = false) :
    a.compare b = some .lt ↔ rank a < rank b := by
  rcases a with ⟨_ | _⟩ | _ | ⟨_ | _⟩ | ⟨_ | _, m₁, e₁, h₁⟩ <;>
  rcases b with ⟨_ | _⟩ | _ | ⟨_ | _⟩ | ⟨_ | _, m₂, e₂, h₂⟩ <;>
  first
  | exact absurd rfl (ne_notANumber ha)
  | exact absurd rfl (ne_notANumber hb)
  | dsimp only [UnpackedFloat.compare, rank]
    simp [Prod.Lex.toLex_lt_toLex, magnitude_lt, magnitude_gt]
  all_goals decide

theorem compare_eq_gt_iff {a b : UnpackedFloat} (ha : a.isNaN = false) (hb : b.isNaN = false) :
    a.compare b = some .gt ↔ rank b < rank a := by
  rcases a with ⟨_ | _⟩ | _ | ⟨_ | _⟩ | ⟨_ | _, m₁, e₁, h₁⟩ <;>
  rcases b with ⟨_ | _⟩ | _ | ⟨_ | _⟩ | ⟨_ | _, m₂, e₂, h₂⟩ <;>
  first
  | exact absurd rfl (ne_notANumber ha)
  | exact absurd rfl (ne_notANumber hb)
  | dsimp only [UnpackedFloat.compare, rank]
    simp [Prod.Lex.toLex_lt_toLex, magnitude_lt, magnitude_gt]
  all_goals
  first
  | decide
  | omega

/-- Numbers that are not NaN are comparable. -/
private theorem compare_isSome {a b : UnpackedFloat} (ha : a.isNaN = false) (hb : b.isNaN = false) :
    ∃ o, a.compare b = some o := by
  rcases a with ⟨_ | _⟩ | _ | ⟨_ | _⟩ | ⟨_ | _, m₁, e₁, h₁⟩ <;>
  rcases b with ⟨_ | _⟩ | _ | ⟨_ | _⟩ | ⟨_ | _, m₂, e₂, h₂⟩ <;>
  first
  | exact absurd rfl (ne_notANumber ha)
  | exact absurd rfl (ne_notANumber hb)
  | exact ⟨_, rfl⟩

theorem lt_iff_rank {x y : Float} (hx : x.isNaN = false) (hy : y.isNaN = false) :
    x < y ↔ rank x.toModel.unpack < rank y.toModel.unpack := by
  rw [← compare_eq_lt_iff hx hy]
  change decide (UnpackedFloat.lt _ _ = true) = true ↔ _
  simp [UnpackedFloat.lt]

theorem le_iff_rank {x y : Float} (hx : x.isNaN = false) (hy : y.isNaN = false) :
    x ≤ y ↔ rank x.toModel.unpack ≤ rank y.toModel.unpack := by
  rw [← not_lt, ← compare_eq_gt_iff hx hy]
  change decide (UnpackedFloat.le _ _ = true) = true ↔ _
  obtain ⟨o, ho⟩ := compare_isSome hx hy
  simp [UnpackedFloat.le, ho, Ordering.isLE_iff_ne_gt]

/-- Numbers that are not NaN are equal if neither lies below the other. -/
theorem beq_iff_not_lt {x y : Float} (hx : x.isNaN = false) (hy : y.isNaN = false) :
    (x == y) = true ↔ ¬ x < y ∧ ¬ y < x := by
  rw [lt_iff_rank hx hy, lt_iff_rank hy hx, ← compare_eq_lt_iff hx hy, ← compare_eq_gt_iff hx hy]
  change (UnpackedFloat.compare x.toModel.unpack y.toModel.unpack == some .eq) = true ↔ _
  obtain ⟨o, ho⟩ := compare_isSome hx hy
  rw [ho]
  cases o <;> decide

/-- Nothing compares with NaN. -/
theorem isNaN_of_compare {a b : UnpackedFloat} {o : Ordering} (h : a.compare b = some o) :
    a.isNaN = false ∧ b.isNaN = false := by
  rcases a with ⟨_ | _⟩ | _ | ⟨_ | _⟩ | ⟨_ | _, m₁, e₁, h₁⟩ <;>
  rcases b with ⟨_ | _⟩ | _ | ⟨_ | _⟩ | ⟨_ | _, m₂, e₂, h₂⟩ <;>
  first
  | exact ⟨rfl, rfl⟩
  | cases h

theorem isNaN_of_lt {x y : Float} (h : x < y) : x.isNaN = false ∧ y.isNaN = false := by
  change decide (UnpackedFloat.lt x.toModel.unpack y.toModel.unpack = true) = true at h
  exact isNaN_of_compare (beq_iff_eq.1 (of_decide_eq_true h))

theorem isNaN_of_beq {x y : Float} (h : (x == y) = true) : x.isNaN = false ∧ y.isNaN = false := by
  change (UnpackedFloat.compare x.toModel.unpack y.toModel.unpack == some .eq) = true at h
  exact isNaN_of_compare (beq_iff_eq.1 h)

/-- All numbers but NaN equal themselves. -/
theorem beq_self {x : Float} (h : x.isNaN = false) : (x == x) = true := by
  have hirrefl : ¬ x < x := fun hlt => lt_irrefl _ ((lt_iff_rank h h).1 hlt)
  exact (beq_iff_not_lt h h).2 ⟨hirrefl, hirrefl⟩

theorem isNaN_eq_false {x : Float} (h : x.isFinite = true) : x.isNaN = false := by
  change UnpackedFloat.isFinite x.toModel.unpack = true at h
  change UnpackedFloat.isNaN x.toModel.unpack = false
  cases hx : x.toModel.unpack with
  | notANumber =>
    rw [hx] at h
    exact absurd h (by decide)
  | infinity | zero | finite => rfl

section

variable {x y z : Float} (hx : x.isFinite = true) (hy : y.isFinite = true)
include hx

theorem le_refl : x ≤ x := (le_iff_rank (isNaN_eq_false hx) (isNaN_eq_false hx)).2 le_rfl

include hy

/-- Of two finite numbers, one that does not lie below the other is at least as large. -/
theorem not_lt_iff : ¬ x < y ↔ y ≤ x := by
  rw [lt_iff_rank (isNaN_eq_false hx) (isNaN_eq_false hy),
    le_iff_rank (isNaN_eq_false hy) (isNaN_eq_false hx), not_lt]

theorem le_of_lt (h : x < y) : x ≤ y := by
  rw [lt_iff_rank (isNaN_eq_false hx) (isNaN_eq_false hy)] at h
  rw [le_iff_rank (isNaN_eq_false hx) (isNaN_eq_false hy)]
  exact h.le

theorem lt_of_le_of_lt (hz : z.isFinite = true) (hxy : x ≤ y) (hyz : y < z) : x < z := by
  rw [le_iff_rank (isNaN_eq_false hx) (isNaN_eq_false hy)] at hxy
  rw [lt_iff_rank (isNaN_eq_false hy) (isNaN_eq_false hz)] at hyz
  rw [lt_iff_rank (isNaN_eq_false hx) (isNaN_eq_false hz)]
  exact hxy.trans_lt hyz

end

@[simp] theorem isFinite_zero : (0.0 : Float).isFinite = true := by decide

private theorem beq_infinity {x y : Float} {s : UnpackedFloat.Sign}
    (hx : x.toModel.unpack = .infinity s) (hy : y.toModel.unpack = .infinity s) :
    (x == y) = true := by
  change (UnpackedFloat.compare x.toModel.unpack y.toModel.unpack == some .eq) = true
  rw [hx, hy]
  cases s <;> rfl

/-- The machine writes finite numbers only. -/
@[simp] theorem isFinite_normalize (x : Float) : (Machine.normalize x).isFinite = true := by
  simp only [Machine.normalize]
  split
  · decide
  · rename_i hnan
    split
    · decide
    · rename_i hpos
      split
      · decide
      · rename_i hneg
        change UnpackedFloat.isFinite x.toModel.unpack = true
        change ¬ UnpackedFloat.isNaN x.toModel.unpack = true at hnan
        rcases hx : x.toModel.unpack with ⟨_ | _⟩ | _ | _ | _
        · exact absurd (beq_infinity hx rfl) hneg
        · exact absurd (beq_infinity hx rfl) hpos
        · rw [hx] at hnan
          exact absurd rfl hnan
        · rfl
        · rfl

end TangledPrograms.Number
