import TangledPrograms.Population.ActionMutation
import TangledPrograms.Program.Mutation

/-!
# Mutation of learners

A round mutates a learner's program, toggles its mode, changes its action and its share group, and
moves its anchors, each if its coin shows it. Rounds are repeated until one of them changes the
learner, as often as the settings allow.
-/

namespace TangledPrograms

open Machine (Bank)

/-- Where a learner stands and what it may change to. -/
structure MutationScope where
  /-- The team that the learner belongs to, which is never its new action. -/
  parent : Option TeamId
  /-- The atomic actions to choose from. -/
  pool : List AtomicAction
  /-- The learners whose memory gives the reference outputs. -/
  references : List LearnerId

/-- What the mutation of a learner changed. -/
structure MutationReport where
  program : Option ProgramMutation := none
  modeToggled : Bool := false
  actionChanged : Bool := false
  groupChanged : Bool := false
  addressingMoved : Bool := false
  /-- The number of rounds, the successful one included. -/
  rounds : Nat := 0
  deriving DecidableEq

def MutationReport.changed (r : MutationReport) : Bool :=
  (match r.program with
    | some m => m.changed
    | none => false) ||
    r.modeToggled || r.actionChanged || r.groupChanged || r.addressingMoved

namespace Population

def referenceBank (p : Population) : Bank :=
  .zeros p.settings.registers.sharedGroups p.settings.registers.sharedSlots

/-- What a learner remembers, as another one sees it, with its own bids. -/
def referenceEntries (p : Population) (target reference : Learner) : List (Observation × Float) :=
  reference.memory.map fun o => (target.addressing.view o, (reference.bid o p.referenceBank).1)

/-- The reference outputs that the mutation of a learner keeps away from. -/
def uniquenessCorpus (p : Population) (l : LearnerId) (references : List LearnerId) :
    Except PopulationError UniquenessCorpus := do
  let target ← p.learner l
  let entries ← references.mapM fun id => do pure (p.referenceEntries target (← p.learner id))
  pure ⟨target.mode, p.settings.registers, entries.flatten⟩

/-- A step of a round: it ends the round when it is refused. -/
abbrev RoundStep := MutationReport → Population → Draw (Edited MutationReport)

def mutateProgram (l : LearnerId) (corpus : Option UniquenessCorpus) : RoundStep :=
  fun report p =>
    match p.learners.find? l with
    | none => pure (.refused (.unknownLearner l) p)
    | some learner => do
      let (outcome, program) ←
        learner.program.mutate p.settings.mutation p.ranges corpus
      let report := if outcome.changed then { report with program := some outcome } else report
      pure (.done report (p.modifyLearner l fun learner => { learner with program }))

def toggleMode (l : LearnerId) : RoundStep := fun report p =>
  match p.learners.find? l with
  | none => pure (.refused (.unknownLearner l) p)
  | some _ =>
    pure (.done { report with modeToggled := true }
      (p.modifyLearner l fun learner => { learner with mode := learner.mode.toggle }))

def changeAction (l : LearnerId) (scope : MutationScope) : RoundStep := fun report p => do
  match ← p.mutateAction l scope.parent scope.pool with
  | .done changed p =>
    pure (.done { report with actionChanged := report.actionChanged || changed } p)
  | .refused e p => pure (.refused e p)

/-- Changes the share group; groups are numbered in 32 bits here. -/
def changeGroup (l : LearnerId) : RoundStep := fun report p =>
  match p.learners.find? l with
  | none => pure (.refused (.unknownLearner l) p)
  | some learner => do
    match ← Draw.resampleDifferent (.ofNat p.settings.registers.sharedGroups)
        (.ofNat learner.group) with
    | none => pure (.done report p)
    | some group =>
      pure (.done { report with groupChanged := true }
        (p.modifyLearner l fun learner => { learner with group := group.toNat }))

def moveAddressing (l : LearnerId) : RoundStep := fun report p =>
  match p.learners.find? l with
  | none => pure (.refused (.unknownLearner l) p)
  | some learner => do
    let (moved, addressing) ← learner.addressing.perturb
    pure (.done { report with addressingMoved := report.addressingMoved || moved }
      (p.modifyLearner l fun learner => { learner with addressing }))

def onCoin (probability : Float) (step : RoundStep) : RoundStep := fun report p => do
  if ← Draw.coin probability then step report p else pure (.done report p)

/-- Takes steps in order, until one is refused. -/
def inOrder : List RoundStep → RoundStep
  | [], report, p => pure (.done report p)
  | step :: rest, report, p => do
    match ← step report p with
    | .done report p => inOrder rest report p
    | .refused e p => pure (.refused e p)

def roundSteps (s : Settings) (l : LearnerId) (scope : MutationScope)
    (corpus : Option UniquenessCorpus) : List RoundStep :=
  onCoin s.mutation.program.toFloat (mutateProgram l corpus) ::
    (if s.addressing.vectorMode then [onCoin s.mutation.program.toFloat (toggleMode l)] else []) ++
    [onCoin s.mutation.action.toFloat (changeAction l scope), onCoin s.mutation.action.toFloat (changeGroup l),
      onCoin s.mutation.action.toFloat (moveAddressing l)]

/-- Rounds until one of them changes the learner, at most so many; `report` counts those made. -/
def mutationRounds (l : LearnerId) (scope : MutationScope) (corpus : Option UniquenessCorpus) :
    Nat → RoundStep
  | 0, report, p => pure (.done report p)
  | rounds + 1, report, p => do
    match ← inOrder (roundSteps p.settings l scope corpus)
        { report with rounds := report.rounds + 1 } p with
    | .refused e p => pure (.refused e p)
    | .done report p =>
      if report.changed then pure (.done report p)
      else mutationRounds l scope corpus rounds report p

/-- Mutates a learner until something changes or the rounds are used up. -/
def mutateLearner (p : Population) (l : LearnerId) (scope : MutationScope) :
    Draw (Edited MutationReport) :=
  if scope.references.isEmpty then
    mutationRounds l scope none p.settings.mutation.maxChangeAttempts {} p
  else
    match p.uniquenessCorpus l scope.references with
    | .error e => pure (.refused e p)
    | .ok corpus =>
      mutationRounds l scope (some corpus) p.settings.mutation.maxChangeAttempts {} p

end Population

end TangledPrograms
