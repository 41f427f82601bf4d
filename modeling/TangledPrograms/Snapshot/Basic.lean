import TangledPrograms.Agent
import TangledPrograms.Error
import TangledPrograms.Population.References
import TangledPrograms.Timestamp

/-!
# Snapshots

A snapshot holds what is needed to resume a population: settings, ranges, counters, all nodes, perhaps
the agents that evaluate it, and the time of saving. Remembered observations are not part of it.
Restoring checks the version, the settings, the agents' roots, every edge and every count.
-/

namespace TangledPrograms

/-- The image of a population. -/
structure Snapshot (F : TimeFormat := .seconds) where
  version : Nat
  savedAt : Timestamp F
  settings : Settings
  ranges : InstructionRanges
  counters : IdCounters
  teams : List Team
  learners : List Learner
  agents : List AgentRecord

namespace Snapshot

variable {F : TimeFormat}

def currentVersion : Nat := 1

def capture (p : Population) (savedAt : Timestamp F) : Snapshot F where
  version := currentVersion
  savedAt := savedAt
  settings := p.settings
  ranges := p.ranges
  counters := p.counters
  teams := p.teams.values
  learners := p.learners.values
  agents := []

def withAgents (s : Snapshot F) (agents : List Agent) : Snapshot F :=
  { s with agents := agents.map Agent.record }

/-- A population with the given nodes; of several nodes with one number the last one stays. -/
def assemble (s : Snapshot F) : Population where
  settings := s.settings
  ranges := s.ranges
  counters := s.counters
  teams := .ofList (s.teams.map fun t => (t.id, t))
  learners := .ofList (s.learners.map fun l => (l.id, l))

def danglingRoot? (s : Snapshot F) (p : Population) : Option TeamId :=
  (s.agents.map (·.root)).find? fun t => !p.teams.contains t

def restore (s : Snapshot F) : Except Error (Population × List AgentRecord) :=
  if s.version ≠ currentVersion then .error (.snapshot (.unsupportedVersion s.version))
  else
    match s.settings.check with
    | .error e => .error (.settings e)
    | .ok () =>
      if s.ranges.maxLength = 0 then .error (.settings (.zeroSized .maxLength))
      else
        let p := s.assemble
        match s.danglingRoot? p with
        | some t => .error (.snapshot (.dangling t))
        | none =>
          match p.checkReferences with
          | .error e => .error (.population e)
          | .ok () => .ok (p, s.agents)

end Snapshot

end TangledPrograms
