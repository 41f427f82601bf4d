import TangledPrograms.Identifier
import TangledPrograms.Observation
import TangledPrograms.Machine.Scalar
import TangledPrograms.Machine.Vector
import TangledPrograms.Random.Uniform

/-!
# Programs

A program is a list of instructions with an identity. It runs on a fresh register file, in scalar
mode over the numbers of an observation or in vector mode over its matrix view.
-/

namespace TangledPrograms.Instruction

/-- A value of a field, uniform below its range; a range of zero counts as one. -/
def drawField (r : InstructionRanges) (f : Field) : Draw UInt32 := do
  pure (.ofNat (← Draw.below .word32 (max (f.range r) 1).toNat))

def random (r : InstructionRanges) : Draw Instruction := do
  let mode ← drawField r .mode
  let operation ← drawField r .operation
  let destShared ← drawField r .destShared
  let dest ← drawField r .dest
  let sourceShared ← drawField r .sourceShared
  let source ← drawField r .source
  pure ⟨mode, operation, destShared, dest, sourceShared, source⟩

end TangledPrograms.Instruction

namespace TangledPrograms

open Machine (Bank)

/-- How programs are run. -/
inductive Mode where
  | scalar | vector
  deriving DecidableEq, Repr

def Mode.name : Mode → String
  | .scalar => "scalar"
  | .vector => "vector"

def Mode.toggle : Mode → Mode
  | .scalar => .vector
  | .vector => .scalar

/-- Instructions with an identity. -/
structure Program where
  id : ProgramId
  code : List Instruction
  deriving DecidableEq

namespace Program

/-- A program of the given instructions, of which there must be one. -/
def make? (id : ProgramId) (code : List Instruction) : Option Program :=
  if code.isEmpty then none else some ⟨id, code⟩

/-- A random program of one to `maxLength` instructions. -/
def random (id : ProgramId) (r : InstructionRanges) : Draw Program := do
  let length := (← Draw.below .word64 (max r.maxLength 1)) + 1
  pure ⟨id, ← (List.replicate length ()).mapM fun _ => Instruction.random r⟩

def offspring (p : Program) (id : ProgramId) : Program := { p with id }

/-- Runs the program on an observation: the answer, and the bank afterwards. -/
def execute (p : Program) (mode : Mode) (input : Observation) (registers : Nat) (bank : Bank)
    (group : Nat) : Float × Bank :=
  match mode with
  | .scalar =>
    let r := Machine.Scalar.execute input.values (max registers 1) p.code bank group
    (r.answer, r.bank)
  | .vector =>
    let s := Machine.Vector.run input.values input.rowsCols registers registers p.code bank group
    (s.answer, s.bank)

end Program

end TangledPrograms
