import TangledPrograms.Population.Node
import TangledPrograms.Settings.Validation

/-!
# Populations

A population holds teams and learners under their numbers, with the settings, ranges and counters
they share. Edges are numbers: a team lists learners, a learner's action may be a team. An edit
either succeeds with an answer or is refused for a reason; both leave a population behind.
-/

namespace TangledPrograms

/-- Teams and learners, and what they share. -/
structure Population where
  settings : Settings
  ranges : InstructionRanges
  counters : IdCounters
  teams : OrderedMap TeamId Team
  learners : OrderedMap LearnerId Learner
  deriving DecidableEq

/-- A team or a learner. -/
inductive Node where
  | team (id : TeamId)
  | learner (id : LearnerId)
  deriving DecidableEq, Repr

def Node.text : Node → String
  | .team t => t.text
  | .learner l => l.text

/-- Why an edit or a decision is refused. -/
inductive PopulationError where
  | unknownTeam (team : TeamId)
  | unknownLearner (learner : LearnerId)
  /-- A count would fall below zero. -/
  | referenceUnderflow (node : Node)
  | referenceMismatch (node : Node) (recorded actual : Nat)
  | noEligibleLearner (team : TeamId)
  | stillReferenced (node : Node) (count : Nat)
  | alreadyMember (team : TeamId) (learner : LearnerId)
  | notMember (team : TeamId) (learner : LearnerId)
  deriving DecidableEq, Repr

def PopulationError.message : PopulationError → String
  | .unknownTeam team => "Team not found: " ++ team.text
  | .unknownLearner learner => "Learner not found: " ++ learner.text
  | .referenceUnderflow node => "Reference count underflow on " ++ node.text
  | .referenceMismatch node recorded actual =>
    "Reference count mismatch on " ++ node.text ++ ": recorded " ++ toString recorded ++
      ", actual " ++ toString actual
  | .noEligibleLearner team => "Team " ++ team.text ++ " has no eligible learner"
  | .stillReferenced node count =>
    node.text ++ " is still referenced " ++ toString count ++ " time(s)"
  | .alreadyMember team learner =>
    "Learner " ++ learner.text ++ " already belongs to team " ++ team.text
  | .notMember team learner => "Learner " ++ learner.text ++ " is not a member of team " ++ team.text

/-- What an edit leaves behind: an answer or a reason, and the population. -/
inductive Edited (α : Type) where
  | done (answer : α) (population : Population)
  | refused (reason : PopulationError) (population : Population)

namespace Edited

variable {α β : Type}

def population : Edited α → Population
  | done _ p => p
  | refused _ p => p

def result : Edited α → Except PopulationError α
  | done a _ => .ok a
  | refused e _ => .error e

end Edited

namespace Population

/-- The population without nodes; the settings are checked first. -/
def new (s : Settings) : Except SettingsError Population := do
  s.check
  pure ⟨s, .ofSettings s.program, .fresh, .empty, .empty⟩

def team (p : Population) (t : TeamId) : Except PopulationError Team :=
  match p.teams.find? t with
  | some team => .ok team
  | none => .error (.unknownTeam t)

def learner (p : Population) (l : LearnerId) : Except PopulationError Learner :=
  match p.learners.find? l with
  | some learner => .ok learner
  | none => .error (.unknownLearner l)

def modifyTeam (p : Population) (t : TeamId) (f : Team → Team) : Population :=
  { p with teams := p.teams.modify t f }

def modifyLearner (p : Population) (l : LearnerId) (f : Learner → Learner) : Population :=
  { p with learners := p.learners.modify l f }

def retainTeam (p : Population) (t : TeamId) : Population :=
  p.modifyTeam t fun team => { team with references := team.references + 1 }

def releaseTeam (p : Population) (t : TeamId) : Population :=
  p.modifyTeam t fun team => { team with references := team.references - 1 }

def retainLearner (p : Population) (l : LearnerId) : Population :=
  p.modifyLearner l fun learner => { learner with references := learner.references + 1 }

def releaseLearner (p : Population) (l : LearnerId) : Population :=
  p.modifyLearner l fun learner => { learner with references := learner.references - 1 }

def retainTarget (p : Population) (a : Action) : Population :=
  match a.target? with
  | some t => p.retainTeam t
  | none => p

def releaseTarget (p : Population) (a : Action) : Population :=
  match a.target? with
  | some t => p.releaseTeam t
  | none => p

end Population

end TangledPrograms
