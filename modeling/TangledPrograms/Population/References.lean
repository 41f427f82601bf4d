import TangledPrograms.Population.Basic

/-!
# Recounting references

All edges are counted anew, in one walk over the learners and one over the teams, and compared with
the counts that the nodes carry. Missing nodes are reported first.
-/

namespace TangledPrograms.Population

def actionTargets (p : Population) : List TeamId :=
  p.learners.values.filterMap fun l => l.action.target?

def memberships (p : Population) : List LearnerId :=
  p.teams.values.flatMap (·.members)

/-- The difference between the recorded and the actual count of a node, if there is one. -/
def mismatch? (node : Node) (recorded actual : Nat) : Option PopulationError :=
  if actual = recorded then none else some (.referenceMismatch node recorded actual)

def referenceFault? (p : Population) : Option PopulationError :=
  let toTeams := OrderedMap.tally p.actionTargets
  let toLearners := OrderedMap.tally p.memberships
  (p.actionTargets.find? fun t => !p.teams.contains t).map .unknownTeam
  <|> (p.memberships.find? fun l => !p.learners.contains l).map .unknownLearner
  <|> p.teams.values.findSome? (fun t =>
    mismatch? (.team t.id) t.references ((toTeams.find? t.id).getD 0))
  <|> p.learners.values.findSome? (fun l =>
    mismatch? (.learner l.id) l.references ((toLearners.find? l.id).getD 0))

/-- Accepts a population whose edges lead to live nodes that count them exactly. -/
def checkReferences (p : Population) : Except PopulationError Unit :=
  match p.referenceFault? with
  | none => .ok ()
  | some e => .error e

end TangledPrograms.Population
