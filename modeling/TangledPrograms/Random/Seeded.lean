/-!
# Random words

All randomness is a stream of 64-bit words, read in order. A `Source` is such a stream with a mark
of how far it has been read and a limit on how far it may be read: a loop that waits for a lucky
word ends, at the latest, at the limit. A loop that would go on for ever on a stream is one that
starves for every limit.

A source that needs no other randomness has given words first, then a counter that moves on by a fixed
odd step for each word and is mixed. Every word is computed from its place alone.
-/

namespace TangledPrograms

/-- Why a computation stops without an answer. -/
inductive Halt where
  /-- A random value is asked of an empty range. -/
  | emptyRange
  /-- A coordinate is wrapped into an axis of length zero. -/
  | emptyAxis
  /-- The random words are used up. -/
  | starved
  /-- A text is announced with more bytes than can be addressed. -/
  | oversizedText
  deriving DecidableEq, Repr

/-- A stream of words, the number of words read, and the number that may be read in all. -/
structure Source where
  word : Nat → UInt64
  drawn : Nat
  limit : Nat

def Source.remaining (s : Source) : Nat := s.limit - s.drawn

/-- A computation that reads words. -/
abbrev Draw := StateT Source (Except Halt)

namespace Draw

/-- Stops for the reason `h`. -/
def halt {α : Type} (h : Halt) : Draw α := fun _ => .error h

def ofExcept {α : Type} (x : Except Halt α) : Draw α := fun s => x.map (·, s)

def word : Draw UInt64 := fun s =>
  if s.drawn < s.limit then .ok (s.word s.drawn, { s with drawn := s.drawn + 1 })
  else .error .starved

def remaining : Draw Nat := fun s => .ok (s.remaining, s)

/-- Runs `attempt` until it gives a value, at most `tries` times. -/
def retry {α : Type} (attempt : Draw (Option α)) : Nat → Draw α
  | 0 => halt .starved
  | tries + 1 => do
    match ← attempt with
    | some a => pure a
    | none => retry attempt tries

/-- Runs `attempt` until it gives a value. An attempt that reads a word each time can be repeated at
most as often as words remain. -/
def untilSome {α : Type} (attempt : Draw (Option α)) : Draw α := do
  retry attempt ((← remaining) + 1)

end Draw

namespace Source

def mix (z : UInt64) : UInt64 :=
  let z := (z ^^^ (z >>> 30)) * 0xbf58476d1ce4e5b9
  let z := (z ^^^ (z >>> 27)) * 0x94d049bb133111eb
  z ^^^ (z >>> 31)

/-- The step of the counter, `2 ^ 64` over the golden ratio. -/
def stride : UInt64 := 0x9e3779b97f4a7c15

/-- The words of `first`, then those of a counter that starts at `seed`; `limit` of them may be
read. -/
def seeded (first : Array UInt64) (seed : UInt64) (limit : Nat) : Source where
  word k := first[k]?.getD (mix (seed + .ofNat (k + 1 - first.size) * stride))
  drawn := 0
  limit := limit

end Source

end TangledPrograms
