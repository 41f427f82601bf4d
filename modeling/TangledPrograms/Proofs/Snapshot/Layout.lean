import TangledPrograms.Proofs.Addressing
import TangledPrograms.Proofs.Bytes.Reads
import TangledPrograms.Proofs.Coordinates
import TangledPrograms.Proofs.Population.Forgetting
import TangledPrograms.Snapshot.Binary

/-!
# Saved values are read back

Every number of a saved value has a width in the file. A value whose numbers and lengths fit is read
back from its bytes; a learner comes back without its memory, and a window with the positions that it
is made with.
-/

namespace TangledPrograms

open Bytes

/-- A list whose length and items fit. -/
def FitsAll {α : Type} (P : α → Prop) (xs : List α) : Prop := xs.length < 2 ^ 64 ∧ ∀ a ∈ xs, P a

theorem FitsAll.reads {α β : Type} {P : β → Prop} {xs : List β} (h : FitsAll P xs)
    {item : Reader UInt8 α} {write : β → List UInt8} (read : β → α)
    (hitem : ∀ b, P b → Reads item (write b) (read b)) :
    Reads (readList item) (list write xs) (xs.map read) :=
  reads_list h.1 fun b hb => hitem b (h.2 b hb)

theorem FitsAll.reads_self {α : Type} {P : α → Prop} {xs : List α} (h : FitsAll P xs)
    {item : Reader UInt8 α} {write : α → List UInt8} (hitem : ∀ a, P a → Reads item (write a) a) :
    Reads (readList item) (list write xs) xs := by
  simpa using h.reads id hitem

theorem Binary64.reads (x : Binary64) : Reads readBytes x.bytes x :=
  (reads_word64 x.bits.toNat_lt).finish (by simp)

theorem Id.reads {k : Kind} (a : Id k) (h : a.Fits) : Reads readBytes a.bytes a :=
  (reads_word64 h).finish rfl

theorem Instruction.reads_word (w : UInt32) : Reads readWord (word32 w.toNat) w :=
  (reads_word32 w.toNat_lt).finish (by simp)

theorem Instruction.reads (i : Instruction) : Reads readBytes i.bytes i := by
  simp only [bytes, words]
  exact (reads_word i.mode).bind <| (reads_word i.operation).bind <|
    (reads_word i.destShared).bind <| (reads_word i.dest).bind <|
    (reads_word i.sourceShared).bind <| (reads_word i.source).finish rfl

def Program.Fits (p : Program) : Prop := p.id.Fits ∧ FitsAll (fun _ => True) p.code

theorem Program.reads (p : Program) (h : p.Fits) : Reads readBytes p.bytes p :=
  (Id.reads p.id h.1).bind <| (h.2.reads_self fun i _ => i.reads).finish rfl

theorem Mode.reads : ∀ m : Mode, Reads readBytes m.bytes m
  | .scalar => (reads_word32 (n := 0) (by decide)).finish rfl
  | .vector => (reads_word32 (n := 1) (by decide)).finish rfl

theorem AddressingKind.reads : ∀ k : AddressingKind, Reads readBytes k.bytes k
  | .full => (reads_word32 (n := 0) (by decide)).finish rfl
  | .window => (reads_word32 (n := 1) (by decide)).finish rfl
  | .multiWindow => (reads_word32 (n := 2) (by decide)).finish rfl

def AtomicAction.Fits : AtomicAction → Prop
  | .label _ => True
  | .vector xs => FitsAll (fun _ => True) xs

theorem AtomicAction.reads : ∀ a : AtomicAction, a.Fits → Reads readBytes a.bytes a
  | .label n, _ => by
    refine (reads_word32 (n := 0) (by decide)).bind ?_
    exact (reads_word64 n.toUInt64.toNat_lt).finish (by simp)
  | .vector xs, h => by
    refine (reads_word32 (n := 1) (by decide)).bind ?_
    exact (h.reads_self fun x _ => x.reads).finish rfl

def Action.Fits : Action → Prop
  | .atomic a => a.Fits
  | .team t => t.Fits

theorem Action.reads : ∀ a : Action, a.Fits → Reads readBytes a.bytes a
  | .atomic a, h => (reads_word32 (n := 0) (by decide)).bind ((a.reads h).finish rfl)
  | .team t, h => (reads_word32 (n := 1) (by decide)).bind ((t.reads h).finish rfl)

def WindowAddressing.Fits (w : WindowAddressing) : Prop :=
  FitsAll FitsWord w.anchor ∧ FitsAll FitsWord w.shape ∧ FitsWord w.kernel

theorem WindowAddressing.reads (w : WindowAddressing) (hc : w.Coherent) (h : w.Fits) :
    Reads readBytes w.bytes w := by
  obtain ⟨hanchor, hshape, hkernel⟩ := h
  simp only [bytes]
  simp only [List.append_assoc]
  refine (hanchor.reads_self fun _ => reads_word64).bind ?_
  refine (hshape.reads_self fun _ => reads_word64).bind ?_
  exact (reads_word64 hkernel).finish (by rw [hc]; rfl)

def MultiWindowAddressing.Fits (w : MultiWindowAddressing) : Prop :=
  FitsAll (FitsAll FitsWord) w.anchors ∧ FitsAll FitsWord w.shape ∧ FitsWord w.kernel ∧
    FitsWord w.step

theorem MultiWindowAddressing.reads (w : MultiWindowAddressing) (hc : w.Coherent) (h : w.Fits) :
    Reads readBytes w.bytes w := by
  obtain ⟨hanchors, hshape, hkernel, hstep⟩ := h
  simp only [bytes]
  simp only [List.append_assoc]
  refine (hanchors.reads_self fun _ ha => ha.reads_self fun _ => reads_word64).bind ?_
  refine (hshape.reads_self fun _ => reads_word64).bind ?_
  refine (reads_word64 hkernel).bind ?_
  exact (reads_word64 hstep).finish (by rw [hc]; rfl)

def Addressing.Fits : Addressing → Prop
  | .full => True
  | .window w => w.Fits
  | .multiWindow w => w.Fits

theorem Addressing.reads : ∀ a : Addressing, a.Coherent → a.Fits → Reads readBytes a.bytes a
  | .full, _, _ => (reads_word32 (n := 0) (by decide)).finish rfl
  | .window w, hc, h => (reads_word32 (n := 1) (by decide)).bind ((w.reads hc h).finish rfl)
  | .multiWindow w, hc, h => (reads_word32 (n := 2) (by decide)).bind ((w.reads hc h).finish rfl)

theorem IdCounters.reads (c : IdCounters) (h : c.Fits) : Reads readBytes c.bytes c := by
  obtain ⟨hprogram, hlearner, hteam⟩ := h
  simp only [bytes]
  simp only [List.append_assoc]
  exact (reads_word64 hprogram).bind <| (reads_word64 hlearner).bind <|
    (reads_word64 hteam).finish rfl

def InstructionRanges.Fits (r : InstructionRanges) : Prop := FitsWord r.maxLength

theorem InstructionRanges.reads (r : InstructionRanges) (h : r.Fits) : Reads readBytes r.bytes r := by
  simp only [bytes]
  simp only [List.append_assoc]
  exact (Instruction.reads_word r.operations).bind <| (Instruction.reads_word r.destinations).bind <|
    (Instruction.reads_word r.sources).bind <| (reads_word64 h).finish rfl

theorem ProgramSettings.reads (s : ProgramSettings) (h : FitsWord s.maxLength) :
    Reads readBytes s.bytes s := by
  simp only [bytes]
  simp only [List.append_assoc]
  exact (Instruction.reads_word s.destinationRange).bind <|
    (Instruction.reads_word s.sourceRange).bind <| (reads_word64 h).finish rfl

def RegisterSettings.Fits (s : RegisterSettings) : Prop :=
  FitsWord s.count ∧ FitsWord s.sharedGroups ∧ FitsWord s.sharedSlots

theorem RegisterSettings.reads (s : RegisterSettings) (h : s.Fits) : Reads readBytes s.bytes s := by
  obtain ⟨hcount, hgroups, hslots⟩ := h
  simp only [bytes]
  simp only [List.append_assoc]
  exact (reads_word64 hcount).bind <| (reads_word64 hgroups).bind <| (reads_word64 hslots).finish rfl

def AddressingSettings.Fits (s : AddressingSettings) : Prop :=
  FitsAll FitsWord s.sourceShape ∧ FitsWord s.kernelSize ∧ FitsWord s.kernelPoints ∧
    FitsWord s.stepSize

theorem AddressingSettings.reads (s : AddressingSettings) (h : s.Fits) :
    Reads readBytes s.bytes s := by
  obtain ⟨hshape, hkernel, hpoints, hstep⟩ := h
  simp only [bytes]
  simp only [List.append_assoc]
  exact s.kind.reads.bind <| (hshape.reads_self fun _ => reads_word64).bind <|
    (reads_word64 hkernel).bind <| (reads_word64 hpoints).bind <| (reads_word64 hstep).bind <|
    (reads_truth s.vectorMode).finish rfl

def MutationSettings.Fits (m : MutationSettings) : Prop :=
  FitsWord m.maxUniqueAttempts ∧ FitsWord m.maxChangeAttempts

theorem MutationSettings.reads (m : MutationSettings) (h : m.Fits) : Reads readBytes m.bytes m := by
  obtain ⟨hunique, hchange⟩ := h
  simp only [bytes, Rate.all, rate, List.flatMap_cons, List.flatMap_nil, List.append_nil,
    List.append_assoc]
  exact m.program.reads.bind <| m.programRepeat.reads.bind <| m.action.reads.bind <|
    m.actionAtomic.reads.bind <| m.deleteInstruction.reads.bind <| m.addInstruction.reads.bind <|
    m.swapInstruction.reads.bind <| m.mutateInstruction.reads.bind <| m.swapVector.reads.bind <|
    m.changeVector.reads.bind <| m.vectorNoise.reads.bind <| m.uniqueThreshold.reads.bind <|
    (reads_word64 hunique).bind <| (reads_word64 hchange).finish rfl

structure Settings.Fits (s : Settings) : Prop where
  maxLength : FitsWord s.program.maxLength
  registers : s.registers.Fits
  addressing : s.addressing.Fits
  mutation : s.mutation.Fits
  stateHistory : FitsWord s.stateHistory

theorem Settings.reads (s : Settings) (h : s.Fits) : Reads readBytes s.bytes s := by
  simp only [bytes]
  simp only [List.append_assoc]
  exact (s.program.reads h.maxLength).bind <| (s.registers.reads h.registers).bind <|
    (s.addressing.reads h.addressing).bind <| (s.mutation.reads h.mutation).bind <|
    (reads_word64 h.stateHistory).finish rfl

def Scores.Fits (s : Scores) : Prop := FitsAll (fun e => FitsWord e.1.utf8ByteSize) s.entries

theorem Scores.reads (s : Scores) (h : Scores.Fits s) : Reads Scores.readBytes (Scores.bytes s) s := by
  refine (h.reads_self fun e he => ?_).finish (congrArg _ (OrderedMap.ofList_entries s))
  exact (reads_text he).bind (e.2.reads.finish rfl)

structure Team.Fits (t : Team) : Prop where
  id : t.id.Fits
  members : FitsAll Id.Fits t.members
  references : t.references < 2 ^ 32
  scores : Scores.Fits t.scores

theorem Team.reads (t : Team) (h : t.Fits) : Reads readBytes t.bytes t := by
  simp only [bytes]
  simp only [List.append_assoc]
  exact (t.id.reads h.id).bind <| (h.members.reads_self Id.reads).bind <|
    (reads_word32 h.references).bind <| (Scores.reads t.scores h.scores).finish rfl

structure Learner.Fits (l : Learner) : Prop where
  id : l.id.Fits
  program : l.program.Fits
  addressing : l.addressing.Fits
  group : FitsWord l.group
  action : l.action.Fits
  references : l.references < 2 ^ 32
  registers : FitsWord l.registers

theorem Learner.reads (l : Learner) (hc : l.addressing.Coherent) (h : l.Fits) :
    Reads readBytes l.bytes l.forget := by
  simp only [bytes]
  simp only [List.append_assoc]
  exact (l.id.reads h.id).bind <| (l.program.reads h.program).bind <| l.mode.reads.bind <|
    (l.addressing.reads hc h.addressing).bind <| (reads_word64 h.group).bind <|
    (l.action.reads h.action).bind <| (reads_word32 h.references).bind <|
    (reads_word64 h.registers).finish rfl

def AgentRecord.Fits (a : AgentRecord) : Prop :=
  a.root.Fits ∧ FitsWord a.number ∧ Scores.Fits a.scores

theorem AgentRecord.reads (a : AgentRecord) (h : a.Fits) : Reads readBytes a.bytes a := by
  obtain ⟨hroot, hnumber, hscores⟩ := h
  simp only [bytes]
  simp only [List.append_assoc]
  exact (a.root.reads hroot).bind <| (reads_word64 hnumber).bind <|
    (Scores.reads a.scores hscores).finish rfl

end TangledPrograms
