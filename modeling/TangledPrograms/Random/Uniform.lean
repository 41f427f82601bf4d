import TangledPrograms.Random.Seeded

/-!
# Coins, uniform values and choices

A uniform value below `range` is the upper half of the product of a word with `range`; a word whose
lower half lies above the last whole multiple of `range` is rejected and the next one is taken.
-/

namespace TangledPrograms.Draw

/-- The width of the words that a uniform value is drawn from. -/
inductive Width where
  | word32 | word64
  deriving DecidableEq, Repr

def Width.bits : Width → Nat
  | .word32 => 32
  | .word64 => 64

def Width.size : Width → Nat
  | .word32 => UInt32.size
  | .word64 => UInt64.size

/-- A word of the given width; the narrow one is the upper half of a full word. -/
def wordOf (w : Width) : Draw Nat := do
  let x ← word
  pure (x.toNat >>> (64 - w.bits))

/-- The largest lower half that is accepted: `range` is moved to the top of the word, less one. -/
def acceptance (w : Width) (range : Nat) : Nat :=
  range <<< (w.bits - (range.log2 + 1)) - 1

def accept? (w : Width) (range word : Nat) : Option Nat :=
  let product := word * range
  if product % w.size ≤ acceptance w range then some (product / w.size) else none

/-- A uniform value below `range`, which must not be zero. -/
def below (w : Width) (range : Nat) : Draw Nat :=
  if range = 0 then halt .emptyRange
  else untilSome do pure (accept? w range (← wordOf w))

/-- A uniform integer from `low` to `high`, both included. -/
def between (low high : Int) : Draw Int :=
  if high < low then halt .emptyRange
  else do pure (low + ((← below .word64 (high - low + 1).toNat) : Int))

/-- The fraction in `[0, 1)` that the upper 53 bits of a word stand for. -/
def fraction (word : UInt64) : Float := (word >>> 11).toFloat * Float.ofBits 0x3ca0000000000000

/-- A uniform fraction in `[0, 1)`. -/
def unit : Draw Float := do pure (fraction (← word))

def coin (probability : Float) : Draw Bool := do pure ((← unit) < probability)

def fairCoin : Draw Bool := do pure ((← word) >>> 63 == 1)

def Width.ofLength (length : Nat) : Width :=
  if length < UInt32.size then .word32 else .word64

def choose {α : Type} (l : List α) : Draw (Option α) :=
  if l.isEmpty then pure none else do pure l[← below (.ofLength l.length) l.length]?

/-- A uniform value below `range` other than `current`, if there is one. -/
def resampleDifferent (range current : UInt32) : Draw (Option UInt32) :=
  if range = 0 then pure none
  else if range = 1 then pure (if current = 0 then none else some 0)
  else if range ≤ current then do pure (some (.ofNat (← below .word32 range.toNat)))
  else do
    let value : UInt32 := .ofNat (← below .word32 (range.toNat - 1))
    pure (some (if current ≤ value then value + 1 else value))

/-- A number below `2 ^ 64`, read as a signed 64-bit integer. -/
def signedWord (n : Nat) : Int := Int.bmod n UInt64.size

/-- `axes` shifts from `-step` to `step`, read as a signed word and at least one, not all zero. -/
def nonzeroShift (axes step : Nat) : Draw (List Int) :=
  let reach := signedWord (max step 1)
  untilSome do
    let shift ← (List.replicate axes ()).mapM fun _ => between (-reach) reach
    pure (if axes = 0 || shift.any (· != 0) then some shift else none)

end TangledPrograms.Draw
