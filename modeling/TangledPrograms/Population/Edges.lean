import TangledPrograms.Population.Basic

/-!
# Edges

Membership and actions are edited together with the counts they stand for. Everything an edit needs
is checked before anything changes.
-/

namespace TangledPrograms.Population

def join (p : Population) (t : TeamId) (l : LearnerId) : Edited Unit :=
  match p.learners.find? l, p.teams.find? t with
  | none, _ => .refused (.unknownLearner l) p
  | some _, none => .refused (.unknownTeam t) p
  | some _, some team =>
    if l ∈ team.members then .refused (.alreadyMember t l) p
    else
      .done () ((p.modifyTeam t fun team =>
        { team with members := team.members ++ [l] }).retainLearner l)

def leave (p : Population) (t : TeamId) (l : LearnerId) : Edited Unit :=
  match p.learners.find? l, p.teams.find? t with
  | none, _ => .refused (.unknownLearner l) p
  | some _, none => .refused (.unknownTeam t) p
  | some learner, some team =>
    if l ∉ team.members then .refused (.notMember t l) p
    else if learner.references = 0 then .refused (.referenceUnderflow (.learner l)) p
    else
      .done () ((p.modifyTeam t fun team =>
        { team with members := team.members.erase l }).releaseLearner l)

/-- Why an action cannot replace the action of a learner, if so: the new target must be live, then
the old one must be live and count the edge. -/
def rewireObstacle? (p : Population) (old new : Action) : Option PopulationError :=
  match new.target?.bind fun t => if p.teams.contains t then none else some t with
  | some t => some (.unknownTeam t)
  | none =>
    match old.target? with
    | none => none
    | some t =>
      match p.teams.find? t with
      | none => some (.unknownTeam t)
      | some team =>
        if team.references = 0 then some (.referenceUnderflow (.team t)) else none

def rewire (p : Population) (l : LearnerId) (action : Action) : Edited Unit :=
  match p.learners.find? l with
  | none => .refused (.unknownLearner l) p
  | some learner =>
    match p.rewireObstacle? learner.action action with
    | some e => .refused e p
    | none =>
      .done () (((p.releaseTarget learner.action).retainTarget action).modifyLearner l fun l =>
        { l with action })

def commitScores (p : Population) (t : TeamId) (scores : Scores) : Edited Unit :=
  match p.teams.find? t with
  | none => .refused (.unknownTeam t) p
  | some _ =>
    .done () (p.modifyTeam t fun team =>
      { team with scores := team.scores.insertAll scores.entries })

end TangledPrograms.Population
