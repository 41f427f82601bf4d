import TangledPrograms.Document.Basic
import TangledPrograms.Snapshot.Basic

/-!
# The documents of the domain types

How every saved type is laid out as a document, and the text of a snapshot.
-/

namespace TangledPrograms

open Document (natural)

def Document.naturals (ns : List Nat) : Document := .list (ns.map natural)

def Document.tagged (name : String) (d : Document) : Document := .record [(name, d)]

def Binary64.document (x : Binary64) : Document := .number x.toFloat

def Observation.document (o : Observation) : Document :=
  .record [("values", .list (o.values.toList.map .number)), ("dims", .naturals o.shape)]

def Instruction.document (i : Instruction) : Document :=
  .naturals (i.words.map UInt32.toNat)

def Program.document (p : Program) : Document :=
  .record [("id", natural p.id.index), ("instructions", .list (p.code.map Instruction.document))]

def AtomicAction.document : AtomicAction → Document
  | .label n => .tagged "label" (.integer n.toInt)
  | .vector xs => .tagged "vector" (.list (xs.map Binary64.document))

def Action.document : Action → Document
  | .atomic a => .tagged "atomic" a.document
  | .team t => .tagged "team" (natural t.index)

def WindowAddressing.document (w : WindowAddressing) : Document :=
  .record [("anchor", .naturals w.anchor), ("dims", .naturals w.shape),
    ("kernel", natural w.kernel)]

def MultiWindowAddressing.document (w : MultiWindowAddressing) : Document :=
  .record [("anchors", .list (w.anchors.map .naturals)), ("dims", .naturals w.shape),
    ("kernel", natural w.kernel), ("step", natural w.step)]

def Addressing.document : Addressing → Document
  | .full => .text "full"
  | .window w => .tagged "window" w.document
  | .multiWindow w => .tagged "multi_window" w.document

def IdCounters.document (c : IdCounters) : Document :=
  .record [("next_program", natural c.nextProgram), ("next_learner", natural c.nextLearner),
    ("next_team", natural c.nextTeam)]

def InstructionRanges.document (r : InstructionRanges) : Document :=
  .record [("operations", natural r.operations.toNat),
    ("destinations", natural r.destinations.toNat), ("sources", natural r.sources.toNat),
    ("max_length", natural r.maxLength)]

def ProgramSettings.document (s : ProgramSettings) : Document :=
  .record [("destination_range", natural s.destinationRange.toNat),
    ("source_range", natural s.sourceRange.toNat), ("max_program_length", natural s.maxLength)]

def RegisterSettings.document (s : RegisterSettings) : Document :=
  .record [("count", natural s.count), ("shared_groups", natural s.sharedGroups),
    ("shared_slots", natural s.sharedSlots)]

def AddressingSettings.document (s : AddressingSettings) : Document :=
  .record [("kind", .text s.kind.name), ("source_dims", .naturals s.sourceShape),
    ("kernel_size", natural s.kernelSize), ("kernel_points", natural s.kernelPoints),
    ("step_size", natural s.stepSize), ("vector_mode", .truth s.vectorMode)]

def MutationSettings.document (m : MutationSettings) : Document :=
  .record ((Rate.all.map fun r => (r.name, (m.rate r).document)) ++
    [("multi_action_noise", m.vectorNoise.document),
      ("unique_program_threshold", m.uniqueThreshold.document),
      ("max_unique_attempts", natural m.maxUniqueAttempts),
      ("max_change_attempts", natural m.maxChangeAttempts)])

def Settings.document (s : Settings) : Document :=
  .record [("program", s.program.document), ("registers", s.registers.document),
    ("addressing", s.addressing.document), ("mutation", s.mutation.document),
    ("state_history", natural s.stateHistory)]

def Scores.document (s : Scores) : Document :=
  .record (s.entries.map fun e => (e.1, e.2.document))

def Team.document (t : Team) : Document :=
  .record [("id", natural t.id.index), ("learners", .naturals (t.members.map (·.index))),
    ("num_learners_referencing", natural t.references), ("outcomes", Scores.document t.scores)]

def Learner.document (l : Learner) : Document :=
  .record [("id", natural l.id.index), ("program", l.program.document), ("mode", .text l.mode.name),
    ("addressing", l.addressing.document), ("share_group", natural l.group),
    ("action", l.action.document), ("num_teams_referencing", natural l.references),
    ("registers", natural l.registers)]

def AgentRecord.document (a : AgentRecord) : Document :=
  .record [("root", natural a.root.index), ("agent_num", natural a.number),
    ("outcomes", Scores.document a.scores)]

namespace Snapshot

variable {F : TimeFormat}

def document (s : Snapshot F) : Document :=
  .record [("version", natural s.version), ("saved_at", .text s.savedAt.text),
    ("config", s.settings.document), ("ranges", s.ranges.document), ("ids", s.counters.document),
    ("teams", .list (s.teams.map Team.document)),
    ("learners", .list (s.learners.map Learner.document)),
    ("agents", .list (s.agents.map AgentRecord.document))]

def text (s : Snapshot F) : String := s.document.pretty

end Snapshot

end TangledPrograms
