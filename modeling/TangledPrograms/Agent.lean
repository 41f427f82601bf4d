import TangledPrograms.Population.Decision
import TangledPrograms.Population.Edges

/-!
# Agents

An agent evaluates a root team. It has a bank of its own, which carries over from one decision to the
next until it is reset, and collects scores, which it can store on its team.
-/

namespace TangledPrograms

open Machine (Bank)

/-- An evaluation of a root team. -/
structure Agent where
  root : TeamId
  number : Nat
  bank : Bank
  scores : Scores
  deriving DecidableEq

/-- What is saved of an agent. -/
structure AgentRecord where
  root : TeamId
  number : Nat
  scores : Scores
  deriving DecidableEq

namespace Agent

/-- The task of a score that names none. -/
def defaultTask : String := "task"

/-- An agent that starts from the scores its team already has. -/
def new (p : Population) (root : TeamId) (number : Nat) : Except PopulationError Agent := do
  let team ← p.team root
  let r := p.settings.registers
  pure ⟨root, number, .zeros r.sharedGroups r.sharedSlots, team.scores⟩

/-- An agent resumed from what was saved: recorded scores stand over those of the team. -/
def ofRecord (p : Population) (r : AgentRecord) : Except PopulationError Agent := do
  let a ← new p r.root r.number
  pure { a with scores := a.scores.insertAll r.scores.entries }

def record (a : Agent) : AgentRecord := ⟨a.root, a.number, a.scores⟩

def reset (a : Agent) : Agent := { a with bank := a.bank.reset }

def act (a : Agent) (p : Population) (input : Observation) : Decision × Agent :=
  let d := p.act a.root input a.bank
  (d, { a with bank := d.bank })

def actRecording (a : Agent) (p : Population) (input : Observation) :
    Decision × Agent × Population :=
  let (d, p) := p.actRecording a.root input a.bank
  (d, { a with bank := d.bank }, p)

def reward (a : Agent) (score : Binary64) (task : Option String) : Agent :=
  { a with scores := a.scores.insert (task.getD defaultTask) score }

def taskDone (a : Agent) (task : String) : Bool := a.scores.contains task

def commit (a : Agent) (p : Population) : Edited Unit := p.commitScores a.root a.scores

end Agent

end TangledPrograms
