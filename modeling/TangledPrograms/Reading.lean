import TangledPrograms.Random.Seeded

/-!
# Reading from the front

A reader takes a value off the front of a list of symbols and leaves the rest. It fails at the first
thing that is wrong, so that of two faults the earlier one counts.
-/

namespace TangledPrograms

/-- Why a value cannot be read. -/
inductive ReadFailure where
  /-- The symbols are not the form of a value. -/
  | malformed
  /-- The symbols are the form of a value that cannot be built. -/
  | halted (h : Halt)
  deriving DecidableEq, Repr

abbrev Reader (σ α : Type) := StateT (List σ) (Except ReadFailure) α

namespace Reader

variable {σ α : Type}

def fail : Reader σ α := fun _ => .error .malformed

def ofOption : Option α → Reader σ α
  | some a => pure a
  | none => fail

def ofExcept : Except Halt α → Reader σ α
  | .ok a => pure a
  | .error h => fun _ => .error (.halted h)

def peek? : Reader σ (Option σ) := fun s => .ok (s.head?, s)

def next : Reader σ σ := fun s =>
  match s with
  | [] => .error .malformed
  | c :: rest => .ok (c, rest)

/-- The symbols left, which stay. Nothing more can be read more often than there are symbols, so they
serve as fuel where a reader repeats: a round takes one unit and reads one symbol at least. -/
def remaining : Reader σ (List σ) := fun s => .ok (s, s)

def times (r : Reader σ α) : Nat → Reader σ (List α)
  | 0 => pure []
  | n + 1 => do
    let a ← r
    pure (a :: (← times r n))

end Reader

end TangledPrograms
