import TangledPrograms.Observation
import TangledPrograms.Random.Uniform

/-!
# Windows

A window is a cube of coordinates that begins at an anchor; each axis wraps to its length, so that a
window of edge `kernel` over `n` axes always has `kernel ^ n` points. This module expands windows
into the positions of their points, moves anchors, and gathers numbers at positions. Coordinates and
positions are words, and their sums and products wrap as those of words do.
-/

namespace TangledPrograms

namespace Window

/-- The positions of a window's points, after `before` whole blocks; the last axis runs fastest. -/
def expandFrom (kernel before : Nat) : List (Nat × Nat) → List Nat
  | [] => [before]
  | (a, d) :: axes =>
    (List.range kernel).flatMap fun o =>
      expandFrom kernel (lowWord (before * d + lowWord (a + o) % d)) axes

/-- The positions of the window at `anchor` in a block of the given shape; the shorter list ends the
window, and a window without axes has no points. -/
def expand (kernel : Nat) (anchor shape : List Nat) : List Nat :=
  match anchor.zip shape with
  | [] => []
  | axes => expandFrom kernel 0 axes

/-- The same for any shape; an axis of length zero cannot be wrapped into. -/
def expand? (kernel : Nat) (anchor shape : List Nat) : Except Halt (List Nat) :=
  if kernel ≠ 0 ∧ 0 ∈ shape.take anchor.length then .error .emptyAxis
  else .ok (expand kernel anchor shape)

/-- A coordinate moved by `shift` and wrapped into an axis; coordinate, sum and length are signed
words, a length of zero counts as one. -/
def moveCoordinate (coordinate : Nat) (shift : Int) (length : Nat) : Nat :=
  (Int.bmod (Draw.signedWord coordinate + shift) UInt64.size %
    Draw.signedWord (max length 1)).toNat

/-- Moves every coordinate that has both a shift and an axis. -/
def moveAnchor : List Nat → List Int → List Nat → List Nat
  | c :: anchor, s :: shift, d :: shape => moveCoordinate c s d :: moveAnchor anchor shift shape
  | anchor, _, _ => anchor

end Window

namespace Observation

/-- The number at a position, wrapped to the number of values. -/
def wrapped (o : Observation) (i : Nat) : Float :=
  have : i % o.values.size < o.values.size := Nat.mod_lt _ o.size_pos
  o.values[i % o.values.size]

/-- The numbers at the given positions, wrapped, as an observation of the given shape; `none` if the
shape does not describe them. -/
def gather? (o : Observation) (positions shape : List Nat) : Option Observation :=
  let values := positions.map o.wrapped
  (make values.toArray shape).toOption

end Observation

end TangledPrograms
