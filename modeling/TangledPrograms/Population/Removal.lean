import TangledPrograms.Population.Basic

/-!
# Removal

Only nodes that nothing refers to can be removed; what they refer to loses a reference.
-/

namespace TangledPrograms.Population

/-- The first member that is not live or does not count its membership. -/
def memberObstacle? (p : Population) : List LearnerId → Option PopulationError
  | [] => none
  | l :: rest =>
    match p.learners.find? l with
    | none => some (.unknownLearner l)
    | some learner =>
      if learner.references = 0 then some (.referenceUnderflow (.learner l))
      else p.memberObstacle? rest

/-- Removes a team that is no learner's action; its members lose a reference each. -/
def removeTeam (p : Population) (t : TeamId) : Edited Team :=
  match p.teams.find? t with
  | none => .refused (.unknownTeam t) p
  | some team =>
    if team.references ≠ 0 then .refused (.stillReferenced (.team t) team.references) p
    else
      match p.memberObstacle? team.members with
      | some e => .refused e p
      | none =>
        .done team
          (team.members.foldl releaseLearner { p with teams := p.teams.erase t })

/-- Removes a learner that no team lists; its action's team loses a reference. -/
def removeLearner (p : Population) (l : LearnerId) : Edited Learner :=
  match p.learners.find? l with
  | none => .refused (.unknownLearner l) p
  | some learner =>
    if learner.references ≠ 0 then .refused (.stillReferenced (.learner l) learner.references) p
    else
      let remaining : Population := { p with learners := p.learners.erase l }
      match learner.action.target? with
      | none => .done learner remaining
      | some t =>
        match p.teams.find? t with
        | none => .refused (.unknownTeam t) p
        | some team =>
          if team.references = 0 then .refused (.referenceUnderflow (.team t)) p
          else .done learner (remaining.releaseTeam t)

def unreferencedTeams (p : Population) : List TeamId :=
  (p.teams.values.filter fun t => t.references = 0).map (·.id)

def unreferencedLearners (p : Population) : List LearnerId :=
  (p.learners.values.filter fun l => l.references = 0).map (·.id)

end TangledPrograms.Population
