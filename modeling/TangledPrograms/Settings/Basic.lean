import TangledPrograms.Binary64

/-!
# Settings

What the machine, the addressing strategies and the mutation operators share. Settings are saved
with a population, so that a resumed one samples from the same ranges.
-/

namespace TangledPrograms

/-- Ranges of new instructions. -/
structure ProgramSettings where
  /-- Destination indices are sampled below this. -/
  destinationRange : UInt32 := 8
  /-- Source indices are sampled below this. -/
  sourceRange : UInt32 := 784
  /-- The longest program made at random. -/
  maxLength : Nat := 128
  deriving DecidableEq

/-- Sizes of the register file and of the shared bank. -/
structure RegisterSettings where
  /-- Private registers of a learner. -/
  count : Nat := 8
  /-- Groups of the shared bank. -/
  sharedGroups : Nat := 8
  /-- Slots in each group. -/
  sharedSlots : Nat := 8
  deriving DecidableEq

/-- Which part of an observation a new learner sees. -/
inductive AddressingKind where
  | full | window | multiWindow
  deriving DecidableEq, Repr

/-- How new learners address observations. -/
structure AddressingSettings where
  kind : AddressingKind := .full
  /-- The shape of the observations that the population sees. -/
  sourceShape : List Nat := [28, 28]
  /-- The length of a window's edges. -/
  kernelSize : Nat := 3
  /-- The number of windows of a learner with several. -/
  kernelPoints : Nat := 2
  /-- The longest step of an anchor along an axis. -/
  stepSize : Nat := 1
  /-- Learners may run in vector mode. -/
  vectorMode : Bool := false
  deriving DecidableEq

/-- Probabilities and limits of mutation. -/
structure MutationSettings where
  /-- A learner's program is mutated; also the gate of the mode toggle. -/
  program : Binary64 := 0.66
  /-- Another pass over the program follows. -/
  programRepeat : Binary64 := 0.66
  /-- A learner's action is mutated; also the gate of share group and addressing. -/
  action : Binary64 := 0.33
  /-- The new action is atomic. -/
  actionAtomic : Binary64 := 0.5
  deleteInstruction : Binary64 := 0.5
  addInstruction : Binary64 := 0.5
  swapInstruction : Binary64 := 1.0
  mutateInstruction : Binary64 := 1.0
  /-- A vector is replaced as a whole. -/
  swapVector : Binary64 := 0.66
  /-- Another coordinate of a vector is moved. -/
  changeVector : Binary64 := 0.40
  /-- The standard deviation of the moves. -/
  vectorNoise : Binary64 := 0.15
  /-- The least distance of a distinct program's output from every reference output. -/
  uniqueThreshold : Binary64 := 0.0
  /-- How often a distinct program is looked for. -/
  maxUniqueAttempts : Nat := 100
  /-- How often anything is retried until it changes. -/
  maxChangeAttempts : Nat := 1000
  deriving DecidableEq

/-- The settings of a population. -/
structure Settings where
  program : ProgramSettings := {}
  registers : RegisterSettings := {}
  addressing : AddressingSettings := {}
  mutation : MutationSettings := {}
  /-- How many observations a learner remembers. -/
  stateHistory : Nat := 50
  deriving DecidableEq

def operationCount : UInt32 := 8

/-- The probabilities of mutation. -/
inductive Rate where
  | program | programRepeat | action | actionAtomic | deleteInstruction | addInstruction
  | swapInstruction | mutateInstruction | swapVector | changeVector
  deriving DecidableEq, Repr

def Rate.all : List Rate :=
  [.program, .programRepeat, .action, .actionAtomic, .deleteInstruction, .addInstruction,
    .swapInstruction, .mutateInstruction, .swapVector, .changeVector]

def Rate.name : Rate → String
  | .program => "program"
  | .programRepeat => "program_repeat"
  | .action => "action"
  | .actionAtomic => "action_atomic"
  | .deleteInstruction => "delete_instruction"
  | .addInstruction => "add_instruction"
  | .swapInstruction => "swap_instruction"
  | .mutateInstruction => "mutate_instruction"
  | .swapVector => "swap_multi_action"
  | .changeVector => "change_multi_action"

def MutationSettings.rate (m : MutationSettings) : Rate → Binary64
  | .program => m.program
  | .programRepeat => m.programRepeat
  | .action => m.action
  | .actionAtomic => m.actionAtomic
  | .deleteInstruction => m.deleteInstruction
  | .addInstruction => m.addInstruction
  | .swapInstruction => m.swapInstruction
  | .mutateInstruction => m.mutateInstruction
  | .swapVector => m.swapVector
  | .changeVector => m.changeVector

def AddressingKind.name : AddressingKind → String
  | .full => "full"
  | .window => "window"
  | .multiWindow => "multi_window"

end TangledPrograms
