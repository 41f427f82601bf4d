import TangledPrograms.Document.Schema
import TangledPrograms.Snapshot.Basic

/-!
# Reading the domain types from documents

The readers take the layout that the documents of the domain types have. Observations must have a
valid shape; windows are made anew from their parameters, so their positions are not read.
-/

namespace TangledPrograms

open Document

variable {k : Kind} {F : TimeFormat}

def Binary64.read : Reader Char Binary64 := do pure (.ofFloat (← float))

def Id.read : Reader Char (Id k) := do pure ⟨← size⟩

def Observation.read : Reader Char Observation := do
  let (values, shape, _) ←
    (Fields.field "values" (items float) (.field "dims" (items size) .done)).read
  Reader.ofOption (Observation.make values.toArray shape).toOption

def Instruction.read : Reader Char Instruction := do
  let (mode, operation, destShared, dest, sourceShared, source, _) ←
    (Fields.field "mode" word32 (.field "operation" word32 (.field "destShared" word32
      (.field "dest" word32 (.field "sourceShared" word32
        (.field "source" word32 .done)))))).readTuple
  pure ⟨mode, operation, destShared, dest, sourceShared, source⟩

def Program.read : Reader Char Program := do
  let (id, code, _) ←
    (Fields.field "id" Id.read (.field "instructions" (items Instruction.read) .done)).read
  pure ⟨id, code⟩

def AtomicAction.read : Reader Char AtomicAction :=
  variant [] [("label", do pure (.label (← signed))),
    ("vector", do pure (.vector (← items Binary64.read)))]

def Action.read : Reader Char Action :=
  variant [] [("atomic", do pure (.atomic (← AtomicAction.read))),
    ("team", do pure (.team (← Id.read)))]

def WindowAddressing.read : Reader Char WindowAddressing := do
  let (anchor, shape, kernel, _) ←
    (Fields.field "anchor" (items size) (.field "dims" (items size)
      (.field "kernel" size .done))).read
  Reader.ofExcept (make anchor shape kernel)

def MultiWindowAddressing.read : Reader Char MultiWindowAddressing := do
  let (anchors, shape, kernel, step, _) ←
    (Fields.field "anchors" (items (items size)) (.field "dims" (items size)
      (.field "kernel" size (.field "step" size .done)))).read
  Reader.ofExcept (make anchors shape kernel step)

def Addressing.read : Reader Char Addressing :=
  variant [("full", .full)] [("window", do pure (.window (← WindowAddressing.read))),
    ("multi_window", do pure (.multiWindow (← MultiWindowAddressing.read)))]

def Mode.read : Reader Char Mode := variant [("scalar", .scalar), ("vector", .vector)] []

def AddressingKind.read : Reader Char AddressingKind :=
  variant [("full", .full), ("window", .window), ("multi_window", .multiWindow)] []

def IdCounters.read : Reader Char IdCounters := do
  let (program, learner, team, _) ←
    (Fields.field "next_program" size (.field "next_learner" size
      (.field "next_team" size .done))).read
  pure ⟨program, learner, team⟩

def InstructionRanges.read : Reader Char InstructionRanges := do
  let (operations, destinations, sources, maxLength, _) ←
    (Fields.field "operations" word32 (.field "destinations" word32 (.field "sources" word32
      (.field "max_length" size .done)))).read
  pure ⟨operations, destinations, sources, maxLength⟩

def ProgramSettings.read : Reader Char ProgramSettings := do
  let (destinationRange, sourceRange, maxLength, _) ←
    (Fields.field "destination_range" word32 (.field "source_range" word32
      (.field "max_program_length" size .done))).read
  pure ⟨destinationRange, sourceRange, maxLength⟩

def RegisterSettings.read : Reader Char RegisterSettings := do
  let (count, sharedGroups, sharedSlots, _) ←
    (Fields.field "count" size (.field "shared_groups" size
      (.field "shared_slots" size .done))).read
  pure ⟨count, sharedGroups, sharedSlots⟩

def AddressingSettings.read : Reader Char AddressingSettings := do
  let (kind, sourceShape, kernelSize, kernelPoints, stepSize, vectorMode, _) ←
    (Fields.field "kind" AddressingKind.read (.field "source_dims" (items size)
      (.field "kernel_size" size (.field "kernel_points" size (.field "step_size" size
        (.field "vector_mode" truthValue .done)))))).read
  pure ⟨kind, sourceShape, kernelSize, kernelPoints, stepSize, vectorMode⟩

def Rate.field {α : Type} (r : Rate) (rest : Fields α) : Fields (Binary64 × α) :=
  .field r.name Binary64.read rest

def MutationSettings.read : Reader Char MutationSettings := do
  let (program, programRepeat, action, actionAtomic, deleteInstruction, addInstruction,
      swapInstruction, mutateInstruction, swapVector, changeVector, vectorNoise, uniqueThreshold,
      maxUniqueAttempts, maxChangeAttempts, _) ←
    (Rate.program.field (Rate.programRepeat.field (Rate.action.field (Rate.actionAtomic.field
      (Rate.deleteInstruction.field (Rate.addInstruction.field (Rate.swapInstruction.field
        (Rate.mutateInstruction.field (Rate.swapVector.field (Rate.changeVector.field
          (.field "multi_action_noise" Binary64.read
            (.field "unique_program_threshold" Binary64.read
              (.field "max_unique_attempts" size
                (.field "max_change_attempts" size .done)))))))))))))).read
  pure ⟨program, programRepeat, action, actionAtomic, deleteInstruction, addInstruction,
    swapInstruction, mutateInstruction, swapVector, changeVector, vectorNoise, uniqueThreshold,
    maxUniqueAttempts, maxChangeAttempts⟩

def Settings.read : Reader Char Settings := do
  let (program, registers, addressing, mutation, stateHistory, _) ←
    (Fields.field "program" ProgramSettings.read (.field "registers" RegisterSettings.read
      (.field "addressing" AddressingSettings.read (.field "mutation" MutationSettings.read
        (.field "state_history" size .done))))).read
  pure ⟨program, registers, addressing, mutation, stateHistory⟩

def Scores.read : Reader Char Scores := do pure (.ofList (← entries Binary64.read))

def Team.read : Reader Char Team := do
  let (id, members, references, scores, _) ←
    (Fields.field "id" Id.read (.field "learners" (items Id.read)
      (.field "num_learners_referencing" (natBelow UInt32.size)
        (.field "outcomes" Scores.read .done)))).read
  pure ⟨id, members, references, scores⟩

def Learner.read : Reader Char Learner := do
  let (id, program, mode, addressing, group, action, references, registers, _) ←
    (Fields.field "id" Id.read (.field "program" Program.read (.field "mode" Mode.read
      (.field "addressing" Addressing.read (.field "share_group" size
        (.field "action" Action.read (.field "num_teams_referencing" (natBelow UInt32.size)
          (.field "registers" size .done)))))))).read
  pure ⟨id, program, mode, addressing, group, action, references, registers, []⟩

def AgentRecord.read : Reader Char AgentRecord := do
  let (root, number, scores, _) ←
    (Fields.field "root" Id.read (.field "agent_num" size
      (.field "outcomes" Scores.read .done))).read
  pure ⟨root, number, scores⟩

def Timestamp.read : Reader Char (Timestamp F) := do Reader.ofOption (ofText? (← quoted))

def Snapshot.read (F : TimeFormat := .seconds) : Reader Char (Snapshot F) := do
  let (version, savedAt, settings, ranges, counters, teams, learners, agents, _) ←
    (Fields.field "version" (natBelow UInt32.size) (.field "saved_at" Timestamp.read
      (.field "config" Settings.read (.field "ranges" InstructionRanges.read
        (.field "ids" IdCounters.read (.field "teams" (items Team.read)
          (.field "learners" (items Learner.read)
            (.field "agents" (items AgentRecord.read) .done)))))))).read
  pure ⟨version, savedAt, settings, ranges, counters, teams, learners, agents⟩

def ReadFailure.error : ReadFailure → Error
  | .malformed => .malformed
  | .halted h => .halted h

def Document.parse {α : Type} (value : Reader Char α) (s : String) : Except Error α :=
  match readAll value s with
  | .ok a => .ok a
  | .error e => .error e.error

def Snapshot.ofText (s : String) (F : TimeFormat := .seconds) : Except Error (Snapshot F) :=
  parse (Snapshot.read F) s

end TangledPrograms
