import TangledPrograms.Settings.Basic

/-!
# Instructions

An instruction is six words. Nothing about them is checked when an instruction is made or changed:
flags are read as "not zero", operation codes modulo the number of operations, and indices modulo
the length of what they point into, so that every instruction runs on every machine.
-/

namespace TangledPrograms

/-- An instruction of the register machine. -/
structure Instruction where
  /-- Not zero: the source is the input; zero: a register or a slot of the bank. -/
  mode : UInt32
  /-- The operation. -/
  operation : UInt32
  /-- Not zero: the result goes to the shared bank. -/
  destShared : UInt32
  /-- The destination index. -/
  dest : UInt32
  /-- Not zero: the source is in the shared bank; in vector mode, a column of the input. -/
  sourceShared : UInt32
  /-- The source index. -/
  source : UInt32
  deriving DecidableEq, Repr

/-- The fields of an instruction. -/
inductive Field where
  | mode | operation | destShared | dest | sourceShared | source
  deriving DecidableEq, Repr

def Field.all : List Field := [.mode, .operation, .destShared, .dest, .sourceShared, .source]

/-- Below which values new instructions are sampled. -/
structure InstructionRanges where
  operations : UInt32
  destinations : UInt32
  sources : UInt32
  /-- The longest program that a mutation may grow. -/
  maxLength : Nat
  deriving DecidableEq, Repr

/-- The ranges that settings ask for, at least one each. -/
def InstructionRanges.ofSettings (s : ProgramSettings) : InstructionRanges where
  operations := operationCount
  destinations := max s.destinationRange 1
  sources := max s.sourceRange 1
  maxLength := max s.maxLength 1

def Field.range (f : Field) (r : InstructionRanges) : UInt32 :=
  match f with
  | .mode | .destShared | .sourceShared => 2
  | .operation => r.operations
  | .dest => r.destinations
  | .source => r.sources

namespace Instruction

def get (i : Instruction) : Field → UInt32
  | .mode => i.mode
  | .operation => i.operation
  | .destShared => i.destShared
  | .dest => i.dest
  | .sourceShared => i.sourceShared
  | .source => i.source

def set (i : Instruction) (f : Field) (v : UInt32) : Instruction :=
  match f with
  | .mode => { i with mode := v }
  | .operation => { i with operation := v }
  | .destShared => { i with destShared := v }
  | .dest => { i with dest := v }
  | .sourceShared => { i with sourceShared := v }
  | .source => { i with source := v }

def words (i : Instruction) : List UInt32 := Field.all.map i.get

def readsInput (i : Instruction) : Bool := i.mode != 0

def readsShared (i : Instruction) : Bool := i.sourceShared != 0

def writesShared (i : Instruction) : Bool := i.destShared != 0

def opcode (i : Instruction) : Fin 8 := .ofNat 8 i.operation.toNat

@[simp] theorem get_set_self (i : Instruction) (f : Field) (v : UInt32) : (i.set f v).get f = v := by
  cases f <;> rfl

theorem get_set_of_ne (i : Instruction) {f g : Field} (v : UInt32) (h : g ≠ f) :
    (i.set f v).get g = i.get g := by
  cases f <;> cases g <;> simp_all [get, set]

end Instruction

/-- Operations on numbers. -/
inductive ScalarOp where
  | add | sub | mul
  /-- Nothing happens when the source is zero. -/
  | div
  /-- The logarithm of the source; nothing happens unless the source is positive. -/
  | log
  | exp | sin
  /-- Negates the destination and ignores the source. -/
  | negate
  deriving DecidableEq, Repr

/-- Operations on vectors, element by element. -/
inductive VectorOp where
  | add | sub | mul | div | negate | exp | cos | tanh
  deriving DecidableEq, Repr

/-- Operations that reduce vectors to a number. -/
inductive ReduceOp where
  | dot | cosine | distance | argMax | argMin | mean | min | max
  deriving DecidableEq, Repr

def ScalarOp.ofCode : Fin 8 → ScalarOp
  | 0 => .add
  | 1 => .sub
  | 2 => .mul
  | 3 => .div
  | 4 => .log
  | 5 => .exp
  | 6 => .sin
  | 7 => .negate

def ScalarOp.mnemonic : ScalarOp → String
  | .add => "ADD"
  | .sub => "SUB"
  | .mul => "MUL"
  | .div => "DIV"
  | .log => "LOG"
  | .exp => "EXP"
  | .sin => "SIN"
  | .negate => "NEG"

def VectorOp.ofCode : Fin 8 → VectorOp
  | 0 => .add
  | 1 => .sub
  | 2 => .mul
  | 3 => .div
  | 4 => .negate
  | 5 => .exp
  | 6 => .cos
  | 7 => .tanh

def ReduceOp.ofCode : Fin 8 → ReduceOp
  | 0 => .dot
  | 1 => .cosine
  | 2 => .distance
  | 3 => .argMax
  | 4 => .argMin
  | 5 => .mean
  | 6 => .min
  | 7 => .max

/-- An instruction as a listing shows it: operation, destination, source. -/
def Instruction.text (i : Instruction) : String :=
  let source := if i.readsInput then "in" else if i.readsShared then "s" else "r"
  (ScalarOp.ofCode i.opcode).mnemonic ++ " " ++ (if i.writesShared then "s" else "r") ++
    toString i.dest ++ ", " ++ source ++ toString i.source

end TangledPrograms
