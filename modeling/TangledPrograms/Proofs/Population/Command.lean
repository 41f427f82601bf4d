import TangledPrograms.Population.Creation
import TangledPrograms.Population.Decision
import TangledPrograms.Population.Edges
import TangledPrograms.Population.Mutation
import TangledPrograms.Population.References
import TangledPrograms.Population.Removal
import TangledPrograms.Proofs.Random.Ensures

/-!
# Commands and runs

Everything a population can be asked for, as one type of commands with one type of replies. A run is
any finite sequence of commands, each with its own random words; a command that halts leaves no state
behind.
-/

namespace TangledPrograms

open Machine (Bank)

/-- What a population can be asked for. -/
inductive Command where
  | addTeam
  | createProgram
  | addLearner (action : Action)
  | addLearnerWith (program : Program) (action : Action) (addressing : Addressing) (group : Nat)
  | cloneLearner (parent : LearnerId)
  | join (team : TeamId) (learner : LearnerId)
  | leave (team : TeamId) (learner : LearnerId)
  | rewire (learner : LearnerId) (action : Action)
  | removeTeam (team : TeamId)
  | removeLearner (learner : LearnerId)
  | mutateAction (learner : LearnerId) (parent : Option TeamId) (pool : List AtomicAction)
  | mutateLearner (learner : LearnerId) (scope : MutationScope)
  | actRecording (team : TeamId) (input : Observation) (bank : Bank)
  | commitScores (team : TeamId) (scores : Scores)
  | teamAct (team : TeamId) (input : Observation) (bank : Bank) (visited : List TeamId)
  | learnerAct (learner : LearnerId) (input : Observation) (bank : Bank) (visited : List TeamId)
  | checkReferences
  | unreferenced

/-- What a command is answered with. -/
inductive Reply where
  | refused (reason : PopulationError)
  | done
  | newTeam (id : TeamId)
  | newLearner (id : LearnerId)
  | newProgram (program : Program)
  | removedTeam (team : Team)
  | removedLearner (learner : Learner)
  | changed (changed : Bool)
  | mutated (report : MutationReport)
  | decided (decision : Decision)
  | unreferenced (teams : List TeamId) (learners : List LearnerId)

def Reply.refusal? : Reply → Option PopulationError
  | .refused e => some e
  | .decided ⟨.error e, _, _, _⟩ => some e
  | _ => none

def Edited.reply {α : Type} (answer : α → Reply) : Edited α → Reply × Population
  | .done a p => (answer a, p)
  | .refused e p => (.refused e, p)

def Command.perform (c : Command) (p : Population) : Draw (Reply × Population) :=
  match c with
  | .addTeam => pure (p.addTeam.map .newTeam id)
  | .createProgram => do pure ((← p.createProgram).map .newProgram id)
  | .addLearner action => do pure ((← p.addLearner action).reply .newLearner)
  | .addLearnerWith program action addressing group =>
    pure ((p.addLearnerWith program action addressing group).reply .newLearner)
  | .cloneLearner parent => pure ((p.cloneLearner parent).reply .newLearner)
  | .join team learner => pure ((p.join team learner).reply fun _ => .done)
  | .leave team learner => pure ((p.leave team learner).reply fun _ => .done)
  | .rewire learner action => pure ((p.rewire learner action).reply fun _ => .done)
  | .removeTeam team => pure ((p.removeTeam team).reply .removedTeam)
  | .removeLearner learner => pure ((p.removeLearner learner).reply .removedLearner)
  | .mutateAction learner parent pool => do
    pure ((← p.mutateAction learner parent pool).reply .changed)
  | .mutateLearner learner scope => do pure ((← p.mutateLearner learner scope).reply .mutated)
  | .actRecording team input bank => pure ((p.actRecording team input bank).map .decided id)
  | .commitScores team scores => pure ((p.commitScores team scores).reply fun _ => .done)
  | .teamAct team input bank visited => pure (.decided (p.teamAct team input bank visited), p)
  | .learnerAct learner input bank visited =>
    pure (.decided (p.learnerAct learner input bank visited), p)
  | .checkReferences =>
    match p.checkReferences with
    | .ok () => pure (.done, p)
    | .error e => pure (.refused e, p)
  | .unreferenced => pure (.unreferenced p.unreferencedTeams p.unreferencedLearners, p)

/-- Carries out commands one after the other, each with its own random words: the replies with what is
left of the words, and the population that is left. -/
def Command.performAll : List (Command × Source) → Population →
    Except Halt (List (Reply × Source) × Population)
  | [], p => pure ([], p)
  | (c, source) :: rest, p => do
    let ((reply, p), source) ← c.perform p source
    let (replies, p) ← performAll rest p
    pure ((reply, source) :: replies, p)

namespace Population

theorem new_eq_ok {s : Settings} {p : Population} (h : new s = .ok p) :
    s.check = .ok () ∧ p = ⟨s, .ofSettings s.program, .fresh, .empty, .empty⟩ := by
  simp only [new] at h
  cases hs : s.check with
  | error e =>
    rw [hs] at h
    cases h
  | ok _ =>
    rw [hs] at h
    exact ⟨rfl, (Except.ok.inj h).symm⟩

theorem createProgram_ensures (p : Population) :
    p.createProgram.Ensures fun r => r.2 = { p with counters := p.counters.takeProgram.2 } :=
  .after fun _ => .pure rfl

section roundSteps

/-- The steps of a round before the action is mutated. -/
def programSteps (s : Settings) (l : LearnerId) (corpus : Option UniquenessCorpus) : List RoundStep :=
  onCoin s.mutation.program.toFloat (mutateProgram l corpus) ::
    if s.addressing.vectorMode then [onCoin s.mutation.program.toFloat (toggleMode l)] else []

/-- The steps of a round after the action is mutated. -/
def placeSteps (s : Settings) (l : LearnerId) : List RoundStep :=
  [onCoin s.mutation.action.toFloat (changeGroup l),
    onCoin s.mutation.action.toFloat (moveAddressing l)]

theorem roundSteps_eq (s : Settings) (l : LearnerId) (scope : MutationScope)
    (corpus : Option UniquenessCorpus) : roundSteps s l scope corpus = programSteps s l corpus ++
      onCoin s.mutation.action.toFloat (changeAction l scope) :: placeSteps s l := rfl

variable {P : RoundStep → Prop} {s : Settings} {l : LearnerId} {scope : MutationScope}
  {corpus : Option UniquenessCorpus}
  (hcoin : ∀ {step : RoundStep}, P step → ∀ probability, P (onCoin probability step))
  (hprogram : P (mutateProgram l corpus)) (hmode : s.addressing.vectorMode = true → P (toggleMode l))
include hcoin hprogram hmode

/-- What every step has and coins keep, all steps of a round have but that of the action. -/
theorem forall_mem_otherSteps (hgroup : P (changeGroup l)) (haddressing : P (moveAddressing l)) :
    ∀ step ∈ programSteps s l corpus ++ placeSteps s l, P step := by
  rw [programSteps, List.cons_append, List.forall_mem_cons, List.forall_mem_append]
  refine ⟨hcoin hprogram _, ?_, ?_⟩
  · split
    · exact List.forall_mem_singleton.2 (hcoin (hmode ‹_›) _)
    · simp
  · exact List.forall_mem_cons.2 ⟨hcoin hgroup _, List.forall_mem_singleton.2 (hcoin haddressing _)⟩

/-- What every step has and coins keep, all steps of a round have. -/
theorem forall_mem_roundSteps (haction : P (changeAction l scope)) (hgroup : P (changeGroup l))
    (haddressing : P (moveAddressing l)) : ∀ step ∈ roundSteps s l scope corpus, P step := by
  have hother := forall_mem_otherSteps hcoin hprogram hmode hgroup haddressing
  rw [List.forall_mem_append] at hother
  rw [roundSteps_eq, List.forall_mem_append, List.forall_mem_cons]
  exact ⟨hother.1, hcoin haction _, hother.2⟩

end roundSteps

/-- `p` is reached from `p₀` by commands that `admits` allows. -/
inductive Run (admits : Command → Prop) (p₀ : Population) : Population → Prop where
  | start : Run admits p₀ p₀
  | step {p p' : Population} {c : Command} {reply : Reply} {source source' : Source} :
    Run admits p₀ p → admits c → c.perform p source = .ok ((reply, p'), source') →
    Run admits p₀ p'

theorem Run.performAll {admits : Command → Prop} {p₀ : Population} :
    ∀ {commands : List (Command × Source)} {p q : Population} {replies : List (Reply × Source)},
      Run admits p₀ p → (∀ c ∈ commands, admits c.1) →
        Command.performAll commands p = .ok (replies, q) → Run admits p₀ q
  | [], _, _, _, h, _, hall => by
    cases hall
    exact h
  | (c, source) :: rest, p, q, _, h, hadmits, hall => by
    rw [List.forall_mem_cons] at hadmits
    obtain ⟨⟨⟨reply, p'⟩, source'⟩, hperform, hall⟩ := ok_of_bind hall
    obtain ⟨⟨replies, p''⟩, hrest, hall⟩ := ok_of_bind hall
    cases hall
    exact Run.performAll (.step h hadmits.1 hperform) hadmits.2 hrest

/-- What is found after the commands is found on a run. -/
theorem Run.exists_performAll {α : Type} {admits : Command → Prop} {p₀ p : Population}
    {commands : List (Command × Source)} {f : Population → α} {x : α} (h : Run admits p₀ p)
    (hadmits : ∀ c ∈ commands, admits c.1)
    (hall : ((Command.performAll commands p).map Prod.snd).map f = .ok x) :
    ∃ q, Run admits p₀ q ∧ f q = x := by
  cases hperform : Command.performAll commands p with
  | error e =>
    rw [hperform] at hall
    cases hall
  | ok r =>
    rw [hperform] at hall
    exact ⟨r.2, h.performAll hadmits hperform, Except.ok.inj hall⟩

end Population

end TangledPrograms
