import TangledPrograms.Proofs.Decision.Congruence
import TangledPrograms.Proofs.Population.Command

/-!
# What forgetting changes

A population that has forgotten everything edits, decides and mutates in the same way, and what comes
of it is the same but for the memories. Only a uniqueness corpus is built from what learners remember.
-/

namespace TangledPrograms

open Machine (Bank)

def Learner.forget (l : Learner) : Learner := { l with memory := [] }

def Population.forget (p : Population) : Population :=
  { p with learners := p.learners.mapValues Learner.forget }

/-- The edit of a population without memories; `answer` is what becomes of the answer. -/
def Edited.forget {α : Type} (answer : α → α) : Edited α → Edited α
  | done a p => done (answer a) p.forget
  | refused e p => refused e p.forget

namespace Learner

@[simp] theorem forget_forget (l : Learner) : l.forget.forget = l.forget := rfl

@[simp] theorem action_forget (l : Learner) : l.forget.action = l.action := rfl

@[simp] theorem references_forget (l : Learner) : l.forget.references = l.references := rfl

@[simp] theorem forget_remember (l : Learner) (input : Observation) (limit : Nat) :
    (l.remember input limit).forget = l.forget := by
  simp only [remember]
  split <;> rfl

end Learner

namespace Population

variable (p : Population)

@[simp] theorem settings_forget : p.forget.settings = p.settings := rfl

@[simp] theorem teams_forget : p.forget.teams = p.teams := rfl

@[simp] theorem find?_forget (l : LearnerId) :
    p.forget.learners.find? l = (p.learners.find? l).map Learner.forget :=
  OrderedMap.find?_mapValues ..

@[simp] theorem forget_forget : p.forget.forget = p.forget := by
  simp only [forget]
  congr 1
  refine OrderedMap.ext_find? fun l => ?_
  cases h : p.learners.find? l <;> simp [h]

theorem modifyTeam_forget (t : TeamId) (f : Team → Team) :
    p.forget.modifyTeam t f = (p.modifyTeam t f).forget := rfl

/-- A change of a learner commutes with forgetting if it does so on every learner. -/
theorem modifyLearner_forget (l : LearnerId) {f : Learner → Learner}
    (hf : ∀ learner, (f learner).forget = f learner.forget) :
    p.forget.modifyLearner l f = (p.modifyLearner l f).forget := by
  simp only [modifyLearner, forget]
  rw [OrderedMap.mapValues_modify _ _ _ hf]

@[simp] theorem retainTarget_forget (a : Action) :
    p.forget.retainTarget a = (p.retainTarget a).forget := by
  simp only [retainTarget]
  cases a.target? <;> rfl

@[simp] theorem releaseTarget_forget (a : Action) :
    p.forget.releaseTarget a = (p.releaseTarget a).forget := by
  simp only [releaseTarget]
  cases a.target? <;> rfl

@[simp] theorem retainLearner_forget (l : LearnerId) :
    p.forget.retainLearner l = (p.retainLearner l).forget :=
  p.modifyLearner_forget l fun _ => rfl

@[simp] theorem releaseLearner_forget (l : LearnerId) :
    p.forget.releaseLearner l = (p.releaseLearner l).forget :=
  p.modifyLearner_forget l fun _ => rfl

theorem rewireObstacle?_forget (old new : Action) :
    p.forget.rewireObstacle? old new = p.rewireObstacle? old new := rfl

@[simp] theorem memberObstacle?_forget (ls : List LearnerId) :
    p.forget.memberObstacle? ls = p.memberObstacle? ls := by
  induction ls with
  | nil => rfl
  | cons l ls ih =>
    simp only [memberObstacle?]
    rw [find?_forget, ih]
    cases p.learners.find? l <;> rfl

theorem addLearnerWith_forget (program : Program) (action : Action) (addressing : Addressing)
    (group : Nat) : p.forget.addLearnerWith program action addressing group =
      (p.addLearnerWith program action addressing group).forget id := by
  simp only [addLearnerWith]
  rw [retainTarget_forget, teams_forget]
  split
  · rfl
  · simp only [Edited.forget, forget, id_eq, OrderedMap.mapValues_insert]
    rfl

theorem addLearnerLike_forget (program : Program) (action : Action) (addressing : Addressing)
    (group : Nat) {f : Learner → Learner} (hf : ∀ learner, (f learner).forget = f learner.forget) :
    p.forget.addLearnerLike program action addressing group f =
      (p.addLearnerLike program action addressing group f).forget id := by
  simp only [addLearnerLike]
  rw [addLearnerWith_forget]
  cases p.addLearnerWith program action addressing group with
  | done id q => exact congrArg _ (q.modifyLearner_forget id hf)
  | refused e q => rfl

theorem createProgram_forget :
    p.forget.createProgram = (fun r => (r.1, r.2.forget)) <$> p.createProgram := by
  simp only [createProgram]
  rw [map_bind]
  rfl

theorem addLearner_forget (action : Action) :
    p.forget.addLearner action = Edited.forget id <$> p.addLearner action := by
  simp only [addLearner]
  rw [createProgram_forget, bind_map_left, map_bind]
  refine bind_congr fun r => ?_
  obtain ⟨program, q⟩ := r
  have hlike : ∀ addressing group (vector : Bool),
      q.forget.addLearnerLike program action addressing group (fun l =>
        { l with mode := if vector then .vector else .scalar }) =
      (q.addLearnerLike program action addressing group fun l =>
        { l with mode := if vector then .vector else .scalar }).forget id :=
    fun addressing group vector => q.addLearnerLike_forget program action addressing group fun _ => rfl
  simp only [map_bind, settings_forget, hlike]
  refine bind_congr fun addressing => bind_congr fun group => ?_
  split <;> simp only [map_bind, map_pure]

theorem cloneLearner_forget (parent : LearnerId) :
    p.forget.cloneLearner parent = (p.cloneLearner parent).forget id := by
  simp only [cloneLearner]
  rw [find?_forget]
  cases p.learners.find? parent with
  | none => rfl
  | some l =>
    exact addLearnerLike_forget { p with counters := p.counters.takeProgram.2 } _ _ _ _ fun _ => rfl

theorem join_forget (t : TeamId) (l : LearnerId) :
    p.forget.join t l = (p.join t l).forget id := by
  simp only [join]
  rw [find?_forget, teams_forget]
  cases p.learners.find? l with
  | none => rfl
  | some learner =>
    cases p.teams.find? t with
    | none => rfl
    | some team =>
      simp only [Option.map_some, modifyTeam_forget, retainLearner_forget]
      split <;> rfl

theorem leave_forget (t : TeamId) (l : LearnerId) :
    p.forget.leave t l = (p.leave t l).forget id := by
  simp only [leave]
  rw [find?_forget, teams_forget]
  cases p.learners.find? l with
  | none => rfl
  | some learner =>
    cases p.teams.find? t with
    | none => rfl
    | some team =>
      simp only [Option.map_some, Learner.references_forget, modifyTeam_forget, releaseLearner_forget]
      split
      · rfl
      · split <;> rfl

theorem rewire_forget (l : LearnerId) (action : Action) :
    p.forget.rewire l action = (p.rewire l action).forget id := by
  simp only [rewire]
  rw [find?_forget]
  cases p.learners.find? l with
  | none => rfl
  | some learner =>
    have hmodify : ∀ q : Population, (q.forget.modifyLearner l fun l => { l with action }) =
        (q.modifyLearner l fun l => { l with action }).forget :=
      fun q => q.modifyLearner_forget l fun _ => rfl
    simp only [Option.map_some, Learner.action_forget, rewireObstacle?_forget, releaseTarget_forget,
      retainTarget_forget, hmodify]
    split <;> rfl

theorem commitScores_forget (t : TeamId) (scores : Scores) :
    p.forget.commitScores t scores = (p.commitScores t scores).forget id := by
  simp only [commitScores]
  rw [teams_forget]
  cases p.teams.find? t <;> rfl

theorem removeTeam_forget (t : TeamId) :
    p.forget.removeTeam t = (p.removeTeam t).forget id := by
  have hrelease : ∀ (ls : List LearnerId) (q : Population),
      ls.foldl releaseLearner q.forget = (ls.foldl releaseLearner q).forget := by
    intro ls
    induction ls with
    | nil => exact fun _ => rfl
    | cons l ls ih =>
      intro q
      rw [List.foldl_cons, releaseLearner_forget]
      exact ih (q.releaseLearner l)
  simp only [removeTeam]
  rw [teams_forget]
  cases p.teams.find? t with
  | none => rfl
  | some team =>
    simp only [memberObstacle?_forget]
    split
    · rfl
    · split
      · rfl
      · exact congrArg _ (hrelease team.members { p with teams := p.teams.erase t })

theorem removeLearner_forget (l : LearnerId) :
    p.forget.removeLearner l = (p.removeLearner l).forget Learner.forget := by
  simp only [removeLearner]
  rw [find?_forget]
  cases p.learners.find? l with
  | none => rfl
  | some learner =>
    have herase : p.forget.learners.erase l = (p.learners.erase l).mapValues Learner.forget :=
      (OrderedMap.mapValues_erase ..).symm
    simp only [Option.map_some, Learner.action_forget, Learner.references_forget, herase]
    by_cases href : learner.references ≠ 0
    · simp only [if_pos href, Edited.forget]
    · simp only [if_neg href]
      cases learner.action.target? with
      | none => rfl
      | some t =>
        simp only [teams_forget]
        cases p.teams.find? t with
        | none => rfl
        | some team =>
          simp only
          split <;> rfl

theorem mutateAction_forget (l : LearnerId) (parent : Option TeamId) (pool : List AtomicAction) :
    p.forget.mutateAction l parent pool = Edited.forget id <$> p.mutateAction l parent pool := by
  simp only [mutateAction]
  rw [find?_forget]
  cases p.learners.find? l with
  | none => rfl
  | some learner =>
    simp only [Option.map_some, map_bind]
    refine bind_congr fun action? => ?_
    cases action? with
    | none => rfl
    | some action =>
      simp only [rewire_forget, Learner.forget]
      split
      · rfl
      · cases p.rewire l action <;> rfl

/-- Members of one number act and bid alike, with and without memories. -/
theorem agreeOn_forget : AgreeOn p p.forget fun _ => True := by
  constructor
  · exact fun _ _ => rfl
  · intro t team _ _ l _
    rw [find?_forget]
    cases p.learners.find? l with
    | none => exact .none
    | some learner => exact .some ⟨rfl, fun _ _ => rfl⟩
  · exact fun _ _ _ _ _ _ _ _ _ _ => trivial

/-- Decisions do not depend on memories. -/
theorem teamAct_forget (t : TeamId) (input : Observation) (bank : Bank) (visited : List TeamId) :
    p.forget.teamAct t input bank visited = p.teamAct t input bank visited :=
  teamAct_congr p.agreeOn_forget trivial input bank visited

theorem learnerAct_forget (l : LearnerId) (input : Observation) (bank : Bank)
    (visited : List TeamId) :
    p.forget.learnerAct l input bank visited = p.learnerAct l input bank visited := by
  simp only [learnerAct]
  rw [find?_forget]
  cases p.learners.find? l with
  | none => rfl
  | some learner =>
    simp only [Option.map_some, Learner.action_forget, teamAct_forget]

theorem forget_modifyLearner_remember (l : LearnerId) (input : Observation) (limit : Nat) :
    (p.modifyLearner l fun learner => learner.remember input limit).forget = p.forget := by
  simp only [forget, modifyLearner]
  congr 1
  refine OrderedMap.ext_find? fun k => ?_
  rw [OrderedMap.find?_mapValues, OrderedMap.find?_modify, OrderedMap.find?_mapValues]
  split
  · cases p.learners.find? k <;> simp
  · rfl

theorem forget_rememberAll (input : Observation) (ls : List LearnerId) :
    (p.rememberAll input ls).forget = p.forget := by
  induction ls generalizing p with
  | nil => rfl
  | cons l ls ih =>
    refine (ih _).trans ?_
    exact p.forget_modifyLearner_remember l input _

theorem referenceFault?_forget : p.forget.referenceFault? = p.referenceFault? := by
  have htargets : p.forget.actionTargets = p.actionTargets := by
    simp only [actionTargets, forget]
    rw [OrderedMap.values_mapValues, List.filterMap_map]
    rfl
  simp only [referenceFault?]
  rw [htargets]
  simp only [forget, memberships, OrderedMap.contains_mapValues, OrderedMap.values_mapValues,
    List.findSome?_map]
  rfl

theorem checkReferences_forget : p.forget.checkReferences = p.checkReferences := by
  simp only [checkReferences]
  rw [referenceFault?_forget]

/-- A step of a round does not look at memories. -/
def RoundStep.Forgets (step : RoundStep) : Prop :=
  ∀ report p, step report p.forget = Edited.forget id <$> step report p

private theorem pure_done_forget (l : LearnerId) (report : MutationReport) {f : Learner → Learner}
    (hf : ∀ learner, (f learner).forget = f learner.forget) :
    (pure (.done report (p.forget.modifyLearner l f)) : Draw (Edited MutationReport)) =
      Edited.forget id <$> pure (.done report (p.modifyLearner l f)) := by
  rw [map_pure, Edited.forget, modifyLearner_forget p l hf]
  rfl

namespace RoundStep.Forgets

theorem mutateProgram (l : LearnerId) (corpus : Option UniquenessCorpus) :
    (mutateProgram l corpus).Forgets := fun report p => by
  simp only [Population.mutateProgram]
  rw [find?_forget]
  cases p.learners.find? l with
  | none => rfl
  | some learner =>
    simp only [Option.map_some, map_bind]
    refine bind_congr fun r => ?_
    obtain ⟨outcome, program⟩ := r
    exact pure_done_forget p l _ fun _ => rfl

theorem toggleMode (l : LearnerId) : (toggleMode l).Forgets := fun report p => by
  simp only [Population.toggleMode]
  rw [find?_forget]
  cases p.learners.find? l with
  | none => rfl
  | some learner => exact pure_done_forget p l _ fun _ => rfl

theorem changeAction (l : LearnerId) (scope : MutationScope) : (changeAction l scope).Forgets :=
  fun report p => by
    simp only [Population.changeAction]
    rw [mutateAction_forget, bind_map_left, map_bind]
    refine bind_congr fun e => ?_
    cases e <;> rfl

theorem changeGroup (l : LearnerId) : (changeGroup l).Forgets := fun report p => by
  simp only [Population.changeGroup]
  rw [find?_forget]
  cases p.learners.find? l with
  | none => rfl
  | some learner =>
    simp only [Option.map_some, map_bind]
    refine bind_congr fun group? => ?_
    cases group? with
    | none => rfl
    | some group =>
      exact pure_done_forget p l _ fun _ => rfl

theorem moveAddressing (l : LearnerId) : (moveAddressing l).Forgets := fun report p => by
  simp only [Population.moveAddressing]
  rw [find?_forget]
  cases p.learners.find? l with
  | none => rfl
  | some learner =>
    simp only [Option.map_some, map_bind]
    refine bind_congr fun r => ?_
    obtain ⟨moved, addressing⟩ := r
    exact pure_done_forget p l _ fun _ => rfl

theorem onCoin {step : RoundStep} (hstep : step.Forgets) (probability : Float) :
    (onCoin probability step).Forgets := fun report p => by
  simp only [Population.onCoin]
  rw [map_bind]
  refine bind_congr fun shown => ?_
  split
  · exact hstep report p
  · rfl

theorem inOrder {steps : List RoundStep} (h : ∀ step ∈ steps, step.Forgets) :
    (inOrder steps).Forgets := fun report p => by
  induction steps generalizing report p with
  | nil => rfl
  | cons step rest ih =>
    simp only [Population.inOrder]
    rw [h step List.mem_cons_self report p, bind_map_left, map_bind]
    refine bind_congr fun e => ?_
    cases e with
    | done report p => exact ih (fun s hs => h s (List.mem_cons_of_mem _ hs)) report p
    | refused e p => rfl

theorem mutationRounds (l : LearnerId) (scope : MutationScope) (corpus : Option UniquenessCorpus)
    (rounds : Nat) : (mutationRounds l scope corpus rounds).Forgets := fun report p => by
  induction rounds generalizing report p with
  | zero => rfl
  | succ rounds ih =>
    have hsteps : ∀ step ∈ roundSteps p.settings l scope corpus, step.Forgets :=
      forall_mem_roundSteps onCoin (mutateProgram l corpus) (fun _ => toggleMode l) (changeAction l scope)
        (changeGroup l) (moveAddressing l)
    simp only [Population.mutationRounds]
    rw [settings_forget, inOrder hsteps _ p, bind_map_left, map_bind]
    refine bind_congr fun e => ?_
    cases e with
    | refused e p => rfl
    | done report p =>
      simp only [Edited.forget, id_eq]
      split
      · rfl
      · exact ih report p

end RoundStep.Forgets

theorem mutateLearner_forget (l : LearnerId) {scope : MutationScope}
    (h : scope.references.isEmpty = true) :
    p.forget.mutateLearner l scope = Edited.forget id <$> p.mutateLearner l scope := by
  simp only [mutateLearner]
  rw [if_pos h, if_pos h]
  exact RoundStep.Forgets.mutationRounds l scope none _ _ p

theorem actRecording_forget (t : TeamId) (input : Observation) (bank : Bank) :
    (p.forget.actRecording t input bank).1 = (p.actRecording t input bank).1 ∧
      (p.forget.actRecording t input bank).2.forget = (p.actRecording t input bank).2.forget := by
  have hact : p.forget.act t input bank = p.act t input bank := p.teamAct_forget t input bank []
  simp only [actRecording]
  rw [hact]
  cases (p.act t input bank).result with
  | error e => simp only [forget_forget, and_self]
  | ok a => simp only [forget_rememberAll, forget_forget, and_self]

theorem unreferencedLearners_forget : p.forget.unreferencedLearners = p.unreferencedLearners := by
  simp only [unreferencedLearners, forget]
  rw [OrderedMap.values_mapValues, List.filter_map, List.map_map]
  rfl

/-- A team whose learner bids the number that it sees, and has seen the number 1. -/
def listening (m : MutationSettings) : Population where
  settings := { mutation := m }
  ranges := .ofSettings {}
  counters := ⟨0, 1, 1⟩
  teams := .ofList [(⟨0⟩, ⟨⟨0⟩, [⟨0⟩], 0, .empty⟩)]
  learners := .ofList [(⟨0⟩,
    { id := ⟨0⟩, program := ⟨⟨0⟩, [⟨1, 0, 0, 0, 0, 0⟩]⟩, mode := .scalar, addressing := .full
      group := 0, action := .atomic (.label 1), references := 1, registers := 8
      memory := [oneNumber] })]

theorem exists_run_listening {m : MutationSettings} {admits : Command → Prop} (hm : m.check = .ok ())
    (hadd : admits (.addLearnerWith ⟨⟨0⟩, [⟨1, 0, 0, 0, 0, 0⟩]⟩ (.atomic (.label 1)) .full 0))
    (hteam : admits .addTeam) (hjoin : admits (.join ⟨0⟩ ⟨0⟩))
    (hact : admits (.actRecording ⟨0⟩ oneNumber (.zeros 1 1))) :
    ∃ p₀, Population.new { mutation := m } = .ok p₀ ∧ Run admits p₀ (listening m) := by
  let p₀ : Population := ⟨{ mutation := m }, .ofSettings {}, .fresh, .empty, .empty⟩
  let p₁ := (p₀.addLearnerWith ⟨⟨0⟩, [⟨1, 0, 0, 0, 0, 0⟩]⟩ (.atomic (.label 1)) .full 0).population
  let p₂ := p₁.addTeam.2
  let p₃ := (p₂.join ⟨0⟩ ⟨0⟩).population
  let source : Source := ⟨fun _ => 0, 0, 0⟩
  have h₀ : Population.new { mutation := m } = .ok p₀ := by
    change (m.check >>= fun _ => pure p₀) = .ok p₀
    rw [hm]
    rfl
  have h₁ : (Command.addLearnerWith ⟨⟨0⟩, [⟨1, 0, 0, 0, 0, 0⟩]⟩ (.atomic (.label 1)) .full 0).perform p₀
      source = .ok ((.newLearner ⟨0⟩, p₁), source) := rfl
  have h₂ : Command.addTeam.perform p₁ source = .ok ((.newTeam ⟨0⟩, p₂), source) := rfl
  have h₃ : (Command.join ⟨0⟩ ⟨0⟩).perform p₂ source = .ok ((.done, p₃), source) := rfl
  obtain ⟨bank, hdecision⟩ : ∃ bank, p₃.act ⟨0⟩ oneNumber (.zeros 1 1) =
      ⟨.ok (.label 1), bank, [⟨0⟩], [⟨0⟩]⟩ := by
    have hwalk := p₃.walk_teamAct oneNumber ⟨0⟩ [] (.zeros 1 1)
    exact ⟨_, Option.some.inj hwalk.symm⟩
  have h₄ : (Command.actRecording ⟨0⟩ oneNumber (.zeros 1 1)).perform p₃ source =
      .ok ((.decided ⟨.ok (.label 1), bank, [⟨0⟩], [⟨0⟩]⟩, listening m), source) := by
    simp only [Command.perform, actRecording, hdecision]
    rfl
  exact ⟨p₀, h₀, .step (.step (.step (.step .start hadd h₁) hteam h₂) hjoin h₃) hact h₄⟩

end Population

end TangledPrograms
