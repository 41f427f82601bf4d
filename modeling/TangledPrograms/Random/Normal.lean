import TangledPrograms.Random.Uniform
import TangledPrograms.Random.Layer

/-!
# Normal deviates

A layer is chosen and a point of it; most points lie under the density at once. A point of the
widest layer beyond its edge is replaced by one of the tail, any other point is kept if it lies under
the density.
-/

namespace TangledPrograms.Normal

/-- The right edge of layer `i`. -/
def edge (i : Fin 257) : Float :=
  have : i.val < edgeBits.size := by rw [size_edgeBits]; exact i.isLt
  .ofBits edgeBits[i.val]

/-- The density at the right edge of layer `i`. -/
def density (i : Fin 257) : Float :=
  have : i.val < densityBits.size := by rw [size_densityBits]; exact i.isLt
  .ofBits densityBits[i.val]

def tailStart : Float := .ofBits 0x400d3bb48209ad33

def layer (word : UInt64) : Fin 256 := .ofNat 256 word.toNat

/-- The point in `[-1, 1)` that the upper 52 bits of a word stand for. -/
def symmetric (word : UInt64) : Float := .ofBits (word >>> 12 ||| 0x4000000000000000) - 3.0

/-- The point in `(0, 1)` that the upper 52 bits of a word stand for. -/
def inner (word : UInt64) : Float :=
  .ofBits (word >>> 12 ||| 0x3ff0000000000000) - (1.0 - Float.ofBits 0x3ca0000000000000)

/-- A point of the tail beyond its start, not positive; or a refusal. -/
def tailAttempt : Draw (Option Float) := do
  let a := inner (← Draw.word)
  let b := inner (← Draw.word)
  let x := a.log / tailStart
  let y := b.log
  pure (if -2.0 * y < x * x then none else some x)

def attempt : Draw (Option Float) := do
  let word ← Draw.word
  let i := layer word
  let u := symmetric word
  let x := u * edge i.castSucc
  if x.abs < edge i.succ then pure (some x)
  else if i = 0 then
    let t ← Draw.untilSome tailAttempt
    pure (some (if u < 0 then t - tailStart else tailStart - t))
  else
    let v ← Draw.unit
    let height := density i.succ + (density i.castSucc - density i.succ) * v
    pure (if height < (-x * x / 2.0).exp then some x else none)

/-- A normal deviate of mean zero and the given standard deviation. -/
def deviate (deviation : Float) : Draw Float := do
  pure (0.0 + deviation * (← Draw.untilSome attempt))

end TangledPrograms.Normal
