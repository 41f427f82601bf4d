import TangledPrograms.Population.Basic

/-!
# New nodes

Every new node gets the next number of its kind. A learner whose action is a team counts as an edge
to it, so the team must be live.
-/

namespace TangledPrograms.Population

def addTeam (p : Population) : TeamId × Population :=
  let (id, counters) := p.counters.takeTeam
  (id, { p with counters, teams := p.teams.insert id (.new id) })

def createProgram (p : Population) : Draw (Program × Population) := do
  let (id, counters) := p.counters.takeProgram
  pure (← Program.random id p.ranges, { p with counters })

/-- A new learner made of the given parts, in scalar mode. -/
def addLearnerWith (p : Population) (program : Program) (action : Action)
    (addressing : Addressing) (group : Nat) : Edited LearnerId :=
  match action.target?.bind fun t => if p.teams.contains t then none else some t with
  | some t => .refused (.unknownTeam t) p
  | none =>
    let p := p.retainTarget action
    let (id, counters) := p.counters.takeLearner
    let learner : Learner :=
      { id, program, mode := .scalar, addressing, group, action, references := 0
        registers := p.settings.registers.count, memory := [] }
    .done id { p with counters, learners := p.learners.insert id learner }

def addLearnerLike (p : Population) (program : Program) (action : Action)
    (addressing : Addressing) (group : Nat) (f : Learner → Learner) : Edited LearnerId :=
  match p.addLearnerWith program action addressing group with
  | .done id p => .done id (p.modifyLearner id f)
  | .refused e p => .refused e p

/-- A new learner with the given action and all else at random; the mode is drawn only if learners
may run in vector mode. -/
def addLearner (p : Population) (action : Action) : Draw (Edited LearnerId) := do
  let (program, p) ← p.createProgram
  let addressing ← Addressing.random p.settings.addressing
  let group ← Draw.below .word64 (max p.settings.registers.sharedGroups 1)
  let vector ← if p.settings.addressing.vectorMode then Draw.fairCoin else pure false
  pure (p.addLearnerLike program action addressing group fun l =>
    { l with mode := if vector then .vector else .scalar })

/-- A learner like another one, with its instructions under a new program number. -/
def cloneLearner (p : Population) (parent : LearnerId) : Edited LearnerId :=
  match p.learners.find? parent with
  | none => .refused (.unknownLearner parent) p
  | some l =>
    let (id, counters) := p.counters.takeProgram
    { p with counters }.addLearnerLike (l.program.offspring id) l.action l.addressing l.group
      fun child => { child with mode := l.mode, registers := l.registers }

end TangledPrograms.Population
