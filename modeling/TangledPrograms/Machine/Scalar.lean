import TangledPrograms.Instruction
import TangledPrograms.Machine.Grid

/-!
# Scalar mode

Registers are numbers. An instruction takes its source from the input, the shared bank or a register,
applies its operation to the destination and the source, and writes the normalized result: the machine
writes only finite numbers. The answer is register 0 after the last instruction.
-/

namespace TangledPrograms.Machine

def largest : Float := .ofBits 0x7fefffffffffffff

/-- The float itself if it is finite; else zero, or the largest number of its sign. -/
def normalize (x : Float) : Float :=
  if x.isNaN then 0.0
  else if x == 1.0 / 0.0 then largest
  else if x == -1.0 / 0.0 then -largest
  else x

end TangledPrograms.Machine

namespace TangledPrograms.Machine.Scalar

/-- Private registers, at least one, and the shared bank. -/
structure State where
  registers : Array Float
  bank : Bank
  registers_pos : 0 < registers.size

namespace State

def registerIndex (s : State) (i : Nat) : Fin s.registers.size :=
  ⟨i % s.registers.size, Nat.mod_lt _ s.registers_pos⟩

def register (s : State) (i : Nat) : Float := s.registers[s.registerIndex i]

def setRegister (s : State) (i : Nat) (x : Float) : State where
  registers := s.registers.set (s.registerIndex i) x
  bank := s.bank
  registers_pos := by rw [Array.size_set]; exact s.registers_pos

end State

/-- An element of the input, its index wrapped; zero if there is no input. -/
def readInput (input : Array Float) (i : Nat) : Float :=
  if h : 0 < input.size then
    have : i % input.size < input.size := Nat.mod_lt _ h
    input[i % input.size]
  else 0.0

/-- The result of an operation on destination and source; `none` leaves the destination alone. -/
def apply (op : ScalarOp) (dest source : Float) : Option Float :=
  match op with
  | .add => some (dest + source)
  | .sub => some (dest - source)
  | .mul => some (dest * source)
  | .div => if source == 0.0 then none else some (dest / source)
  | .log => if source ≤ 0.0 then none else some source.log
  | .exp => some source.exp
  | .sin => some source.sin
  | .negate => some (-dest)

def source (input : Array Float) (group : Nat) (s : State) (i : Instruction) : Float :=
  if i.readsInput then readInput input i.source.toNat
  else if i.readsShared then s.bank.get group i.source.toNat
  else s.register i.source.toNat

def destination (group : Nat) (s : State) (i : Instruction) : Float :=
  if i.writesShared then s.bank.get group i.dest.toNat else s.register i.dest.toNat

def write (group : Nat) (s : State) (i : Instruction) (x : Float) : State :=
  if i.writesShared then { s with bank := s.bank.set group i.dest.toNat x }
  else s.setRegister i.dest.toNat x

def step (input : Array Float) (group : Nat) (s : State) (i : Instruction) : State :=
  match apply (.ofCode i.opcode) (destination group s i) (source input group s i) with
  | some x => write group s i (normalize x)
  | none => s

theorem size_replicate_max_one_pos (count : Nat) (x : Float) :
    0 < (Array.replicate (max count 1) x).size := by
  rw [Array.size_replicate]
  exact max_one_pos count

/-- `count` registers of zeros, at least one. -/
def start (count : Nat) (bank : Bank) : State where
  registers := Array.replicate (max count 1) 0.0
  bank := bank
  registers_pos := size_replicate_max_one_pos count 0.0

/-- Runs instructions one after the other from registers of zeros. -/
def run (input : Array Float) (count : Nat) (code : List Instruction) (bank : Bank) (group : Nat) :
    State :=
  code.foldl (step input group) (start count bank)

/-- What a run leaves behind. -/
structure Result where
  answer : Float
  registers : Array Float
  bank : Bank

/-- Runs instructions on `count` registers; without registers nothing happens and the answer is
zero. -/
def execute (input : Array Float) (count : Nat) (code : List Instruction) (bank : Bank)
    (group : Nat) : Result :=
  if count = 0 then ⟨0.0, #[], bank⟩
  else
    let s := run input count code bank group
    ⟨s.register 0, s.registers, s.bank⟩

end TangledPrograms.Machine.Scalar
