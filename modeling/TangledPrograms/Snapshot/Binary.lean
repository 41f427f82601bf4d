import TangledPrograms.Bytes.Blake3
import TangledPrograms.Bytes.Codec
import TangledPrograms.Bytes.Hex
import TangledPrograms.Snapshot.Read

/-!
# Snapshot files

How every saved type is laid out as bytes, and back. A file is the checksum of the payload as a text,
and the payload as a list of bytes. Loading compares the checksums before it looks into the payload;
bytes that are left over, behind the file or behind the payload, are ignored.
-/

namespace TangledPrograms

open Bytes

variable {k : Kind} {F : TimeFormat}

def Binary64.bytes (x : Binary64) : List UInt8 := word64 x.bits.toNat

def Binary64.readBytes : Reader UInt8 Binary64 := do pure ⟨.ofNat (← readWord64)⟩

def Id.bytes (a : Id k) : List UInt8 := word64 a.index

def Id.readBytes : Reader UInt8 (Id k) := do pure ⟨← readWord64⟩

def Instruction.bytes (i : Instruction) : List UInt8 := i.words.flatMap fun w => word32 w.toNat

def Instruction.readWord : Reader UInt8 UInt32 := do pure (.ofNat (← readWord32))

def Instruction.readBytes : Reader UInt8 Instruction := do
  let mode ← readWord
  let operation ← readWord
  let destShared ← readWord
  let dest ← readWord
  let sourceShared ← readWord
  let source ← readWord
  pure ⟨mode, operation, destShared, dest, sourceShared, source⟩

def Program.bytes (p : Program) : List UInt8 := p.id.bytes ++ list Instruction.bytes p.code

def Program.readBytes : Reader UInt8 Program := do
  let id ← Id.readBytes
  let code ← readList Instruction.readBytes
  pure ⟨id, code⟩

def Mode.bytes : Mode → List UInt8
  | .scalar => word32 0
  | .vector => word32 1

def Mode.readBytes : Reader UInt8 Mode := do
  match ← readWord32 with
  | 0 => pure .scalar
  | 1 => pure .vector
  | _ => Reader.fail

def AddressingKind.bytes : AddressingKind → List UInt8
  | .full => word32 0
  | .window => word32 1
  | .multiWindow => word32 2

def AddressingKind.readBytes : Reader UInt8 AddressingKind := do
  match ← readWord32 with
  | 0 => pure .full
  | 1 => pure .window
  | 2 => pure .multiWindow
  | _ => Reader.fail

def AtomicAction.bytes : AtomicAction → List UInt8
  | .label n => word32 0 ++ word64 n.toUInt64.toNat
  | .vector xs => word32 1 ++ list Binary64.bytes xs

def AtomicAction.readBytes : Reader UInt8 AtomicAction := do
  match ← readWord32 with
  | 0 => do pure (.label (.ofUInt64 (.ofNat (← readWord64))))
  | 1 => do pure (.vector (← readList Binary64.readBytes))
  | _ => Reader.fail

def Action.bytes : Action → List UInt8
  | .atomic a => word32 0 ++ a.bytes
  | .team t => word32 1 ++ t.bytes

def Action.readBytes : Reader UInt8 Action := do
  match ← readWord32 with
  | 0 => do pure (.atomic (← AtomicAction.readBytes))
  | 1 => do pure (.team (← Id.readBytes))
  | _ => Reader.fail

def WindowAddressing.bytes (w : WindowAddressing) : List UInt8 :=
  list word64 w.anchor ++ list word64 w.shape ++ word64 w.kernel

def WindowAddressing.readBytes : Reader UInt8 WindowAddressing := do
  let anchor ← readList readWord64
  let shape ← readList readWord64
  let kernel ← readWord64
  Reader.ofExcept (make anchor shape kernel)

def MultiWindowAddressing.bytes (w : MultiWindowAddressing) : List UInt8 :=
  list (list word64) w.anchors ++ list word64 w.shape ++ word64 w.kernel ++ word64 w.step

def MultiWindowAddressing.readBytes : Reader UInt8 MultiWindowAddressing := do
  let anchors ← readList (readList readWord64)
  let shape ← readList readWord64
  let kernel ← readWord64
  let step ← readWord64
  Reader.ofExcept (make anchors shape kernel step)

def Addressing.bytes : Addressing → List UInt8
  | .full => word32 0
  | .window w => word32 1 ++ w.bytes
  | .multiWindow w => word32 2 ++ w.bytes

def Addressing.readBytes : Reader UInt8 Addressing := do
  match ← readWord32 with
  | 0 => pure .full
  | 1 => do pure (.window (← WindowAddressing.readBytes))
  | 2 => do pure (.multiWindow (← MultiWindowAddressing.readBytes))
  | _ => Reader.fail

def IdCounters.bytes (c : IdCounters) : List UInt8 :=
  word64 c.nextProgram ++ word64 c.nextLearner ++ word64 c.nextTeam

def IdCounters.readBytes : Reader UInt8 IdCounters := do
  let program ← readWord64
  let learner ← readWord64
  let team ← readWord64
  pure ⟨program, learner, team⟩

def InstructionRanges.bytes (r : InstructionRanges) : List UInt8 :=
  word32 r.operations.toNat ++ word32 r.destinations.toNat ++ word32 r.sources.toNat ++
    word64 r.maxLength

def InstructionRanges.readBytes : Reader UInt8 InstructionRanges := do
  let operations ← Instruction.readWord
  let destinations ← Instruction.readWord
  let sources ← Instruction.readWord
  let maxLength ← readWord64
  pure ⟨operations, destinations, sources, maxLength⟩

def ProgramSettings.bytes (s : ProgramSettings) : List UInt8 :=
  word32 s.destinationRange.toNat ++ word32 s.sourceRange.toNat ++ word64 s.maxLength

def ProgramSettings.readBytes : Reader UInt8 ProgramSettings := do
  let destinationRange ← Instruction.readWord
  let sourceRange ← Instruction.readWord
  let maxLength ← readWord64
  pure ⟨destinationRange, sourceRange, maxLength⟩

def RegisterSettings.bytes (s : RegisterSettings) : List UInt8 :=
  word64 s.count ++ word64 s.sharedGroups ++ word64 s.sharedSlots

def RegisterSettings.readBytes : Reader UInt8 RegisterSettings := do
  let count ← readWord64
  let sharedGroups ← readWord64
  let sharedSlots ← readWord64
  pure ⟨count, sharedGroups, sharedSlots⟩

def AddressingSettings.bytes (s : AddressingSettings) : List UInt8 :=
  s.kind.bytes ++ list word64 s.sourceShape ++ word64 s.kernelSize ++ word64 s.kernelPoints ++
    word64 s.stepSize ++ truth s.vectorMode

def AddressingSettings.readBytes : Reader UInt8 AddressingSettings := do
  let kind ← AddressingKind.readBytes
  let sourceShape ← readList readWord64
  let kernelSize ← readWord64
  let kernelPoints ← readWord64
  let stepSize ← readWord64
  let vectorMode ← readTruth
  pure ⟨kind, sourceShape, kernelSize, kernelPoints, stepSize, vectorMode⟩

def MutationSettings.bytes (m : MutationSettings) : List UInt8 :=
  (Rate.all.flatMap fun r => (m.rate r).bytes) ++ m.vectorNoise.bytes ++
    m.uniqueThreshold.bytes ++ word64 m.maxUniqueAttempts ++ word64 m.maxChangeAttempts

def MutationSettings.readBytes : Reader UInt8 MutationSettings := do
  let program ← Binary64.readBytes
  let programRepeat ← Binary64.readBytes
  let action ← Binary64.readBytes
  let actionAtomic ← Binary64.readBytes
  let deleteInstruction ← Binary64.readBytes
  let addInstruction ← Binary64.readBytes
  let swapInstruction ← Binary64.readBytes
  let mutateInstruction ← Binary64.readBytes
  let swapVector ← Binary64.readBytes
  let changeVector ← Binary64.readBytes
  let vectorNoise ← Binary64.readBytes
  let uniqueThreshold ← Binary64.readBytes
  let maxUniqueAttempts ← readWord64
  let maxChangeAttempts ← readWord64
  pure ⟨program, programRepeat, action, actionAtomic, deleteInstruction, addInstruction,
    swapInstruction, mutateInstruction, swapVector, changeVector, vectorNoise, uniqueThreshold,
    maxUniqueAttempts, maxChangeAttempts⟩

def Settings.bytes (s : Settings) : List UInt8 :=
  s.program.bytes ++ s.registers.bytes ++ s.addressing.bytes ++ s.mutation.bytes ++
    word64 s.stateHistory

def Settings.readBytes : Reader UInt8 Settings := do
  let program ← ProgramSettings.readBytes
  let registers ← RegisterSettings.readBytes
  let addressing ← AddressingSettings.readBytes
  let mutation ← MutationSettings.readBytes
  let stateHistory ← readWord64
  pure ⟨program, registers, addressing, mutation, stateHistory⟩

def Scores.entryBytes (e : String × Binary64) : List UInt8 := text e.1 ++ e.2.bytes

def Scores.bytes (s : Scores) : List UInt8 := list entryBytes s.entries

def Scores.readEntry : Reader UInt8 (String × Binary64) := do
  let task ← readText
  let score ← Binary64.readBytes
  pure (task, score)

def Scores.readBytes : Reader UInt8 Scores := do pure (.ofList (← readList readEntry))

def Team.bytes (t : Team) : List UInt8 :=
  t.id.bytes ++ list Id.bytes t.members ++ word32 t.references ++ Scores.bytes t.scores

def Team.readBytes : Reader UInt8 Team := do
  let id ← Id.readBytes
  let members ← readList Id.readBytes
  let references ← readWord32
  let scores ← Scores.readBytes
  pure ⟨id, members, references, scores⟩

def Learner.bytes (l : Learner) : List UInt8 :=
  l.id.bytes ++ l.program.bytes ++ l.mode.bytes ++ l.addressing.bytes ++ word64 l.group ++
    l.action.bytes ++ word32 l.references ++ word64 l.registers

def Learner.readBytes : Reader UInt8 Learner := do
  let id ← Id.readBytes
  let program ← Program.readBytes
  let mode ← Mode.readBytes
  let addressing ← Addressing.readBytes
  let group ← readWord64
  let action ← Action.readBytes
  let references ← readWord32
  let registers ← readWord64
  pure ⟨id, program, mode, addressing, group, action, references, registers, []⟩

def AgentRecord.bytes (a : AgentRecord) : List UInt8 :=
  a.root.bytes ++ word64 a.number ++ Scores.bytes a.scores

def AgentRecord.readBytes : Reader UInt8 AgentRecord := do
  let root ← Id.readBytes
  let number ← readWord64
  let scores ← Scores.readBytes
  pure ⟨root, number, scores⟩

def Timestamp.readBytes : Reader UInt8 (Timestamp F) := do Reader.ofOption (ofText? (← readText))

namespace Snapshot

def payload (s : Snapshot F) : List UInt8 :=
  word32 s.version ++ Bytes.text s.savedAt.text ++ s.settings.bytes ++ s.ranges.bytes ++
    s.counters.bytes ++ list Team.bytes s.teams ++ list Learner.bytes s.learners ++
    list AgentRecord.bytes s.agents

def readPayload : Reader UInt8 (Snapshot F) := do
  let version ← readWord32
  let savedAt ← Timestamp.readBytes
  let settings ← Settings.readBytes
  let ranges ← InstructionRanges.readBytes
  let counters ← IdCounters.readBytes
  let teams ← readList Team.readBytes
  let learners ← readList Learner.readBytes
  let agents ← readList AgentRecord.readBytes
  pure ⟨version, savedAt, settings, ranges, counters, teams, learners, agents⟩

def checksum (payload : List UInt8) : String := hex (Blake3.hash payload)

def envelope (payload : List UInt8) : List UInt8 :=
  Bytes.text (checksum payload) ++ word64 payload.length ++ payload

def file (s : Snapshot F) : List UInt8 := envelope s.payload

/-- Reads the checksum of a file; a length that no memory could hold is not tried. -/
def readChecksum : Reader UInt8 String := do
  let length ← readWord64
  if UInt64.size / 2 ≤ length then Reader.ofExcept (.error .oversizedText)
  else Reader.ofOption (String.fromUTF8? ⟨(← take length).toArray⟩)

def readFile : Reader UInt8 (String × List UInt8) := do
  let expected ← readChecksum
  let payload ← take (← readWord64)
  pure (expected, payload)

/-- The snapshot of a file; there may be no file. -/
def ofFile (file : Option (List UInt8)) (F : TimeFormat := .seconds) : Except Error (Snapshot F) :=
  match file with
  | none => .error .missingFile
  | some bytes =>
    match readFile.run bytes with
    | .error e => .error e.error
    | .ok ((expected, payload), _) =>
      let actual := checksum payload
      if actual ≠ expected then .error (.snapshot (.checksumMismatch expected actual))
      else
        match readPayload.run payload with
        | .error e => .error e.error
        | .ok (s, _) => .ok s

end Snapshot

def Population.ofFile (file : Option (List UInt8)) (F : TimeFormat := .seconds) :
    Except Error Population := do
  pure (← (← Snapshot.ofFile file F).restore).1

end TangledPrograms
