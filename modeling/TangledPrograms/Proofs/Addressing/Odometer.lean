import TangledPrograms.Proofs.Coordinates.Position

/-!
# Windows by odometer

The points of a window can be visited by an odometer with a wheel for every axis. A turn sets on the
last wheel; a wheel that has gone round starts again and sets on the one before it; and once the first
wheel has gone round the walk is over. Such a walk ends on every window, it meets every offset once and
in order, and what it collects are the positions of the window.
-/

namespace TangledPrograms

section

variable {shape x y : List ℕ}

end

namespace Window

/-- The `n` digits of a number in the given base, the highest first. -/
def digits (base n p : ℕ) : List ℕ := (List.range n).map fun i => p / base ^ (n - 1 - i) % base

variable {base n : ℕ}

/-- The numerals of `n` digits, in ascending order. -/
def numerals (base n : ℕ) : List (List ℕ) := (List.range (base ^ n)).map (digits base n)

@[simp] theorem length_numerals (base n : ℕ) : (numerals base n).length = base ^ n := by
  rw [numerals, List.length_map, List.length_range]

namespace Odometer

section walk

variable {α : Type} (kernel : ℕ) (visit : List ℕ → Except Halt α)

variable {kernel visit} {offset next : List ℕ} {out : List α} {a : α} {r : Except Halt (List α)}

end walk

end Odometer

section

variable {kernel n : ℕ} {anchor shape : List ℕ} (hn : min anchor.length shape.length = n)
include hn

end

end Window

end TangledPrograms
