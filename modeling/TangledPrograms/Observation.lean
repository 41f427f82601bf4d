import TangledPrograms.Random.Seeded

/-!
# Observations

An observation is a block of numbers with a shape: at least one axis, no axis of length zero, and as
many numbers as the shape holds, last axis fastest. `flatIndex` is the position of a coordinate in
such a block, each axis wrapped to its length. Positions are words: what exceeds 64 bits is lost.
-/

namespace TangledPrograms

def volume (shape : List Nat) : Nat := shape.foldr (· * ·) 1

/-- Numbers in the order of their coordinates, last axis fastest. -/
structure Observation where
  values : Array Float
  shape : List Nat
  shape_ne_nil : shape ≠ []
  axis_pos : ∀ d ∈ shape, 0 < d
  volume_shape : volume shape = values.size
  deriving DecidableEq

/-- Why numbers and a shape do not make an observation. -/
inductive ShapeError where
  | noValues
  | invalidShape (shape : List Nat)
  | wrongCount (shape : List Nat) (expected got : Nat)
  deriving DecidableEq, Repr

def listText (ns : List Nat) : String :=
  "[" ++ ", ".intercalate (ns.map toString) ++ "]"

def ShapeError.message : ShapeError → String
  | .noValues => "no values"
  | .invalidShape shape => "invalid shape " ++ listText shape
  | .wrongCount shape expected got =>
    "shape " ++ listText shape ++ " holds " ++ toString expected ++ " values, got " ++ toString got

namespace Observation

/-- An observation of the given shape; the shape must describe the numbers. -/
def make (values : Array Float) (shape : List Nat) : Except ShapeError Observation :=
  if values.isEmpty then .error .noValues
  else if h : shape = [] ∨ 0 ∈ shape then .error (.invalidShape shape)
  else if hv : volume shape = values.size then
    .ok ⟨values, shape, fun e => h (.inl e),
      fun _ hd => Nat.pos_of_ne_zero fun e => h (.inr (e ▸ hd)), hv⟩
  else .error (.wrongCount shape (volume shape) values.size)

def flat (values : Array Float) : Except ShapeError Observation := make values [values.size]

/-- The matrix view: the last axis gives the columns, all others together the rows. -/
def rowsCols (o : Observation) : Nat × Nat :=
  let cols := o.shape.getLast o.shape_ne_nil
  (o.values.size / cols, cols)

theorem size_pos (o : Observation) : 0 < o.values.size := by
  rw [← o.volume_shape]
  have : ∀ l : List Nat, (∀ d ∈ l, 0 < d) → 0 < volume l := by
    intro l
    induction l with
    | nil => intro _; exact Nat.one_pos
    | cons d l ih =>
      intro h
      exact Nat.mul_pos (h d List.mem_cons_self) (ih fun e he => h e (List.mem_cons_of_mem _ he))
  exact this o.shape o.axis_pos

end Observation

/-- What a word of 64 bits keeps of a number. -/
def lowWord (n : Nat) : Nat := n % UInt64.size

/-- The position of a coordinate in a block of the given shape, after `before` whole blocks; the
shorter list ends it. -/
def flatIndexFrom (before : Nat) : List Nat → List Nat → Nat
  | d :: shape, c :: coords => flatIndexFrom (lowWord (before * d + c % d)) shape coords
  | _, _ => before

/-- The position of a coordinate in a block of the given shape, each axis wrapped to its length. -/
def flatIndex (shape coords : List Nat) : Nat := flatIndexFrom 0 shape coords

/-- The same for any shape; an axis of length zero cannot be wrapped into. -/
def flatIndex? (shape coords : List Nat) : Except Halt Nat :=
  if 0 ∈ shape.take coords.length then .error .emptyAxis else .ok (flatIndex shape coords)

end TangledPrograms
