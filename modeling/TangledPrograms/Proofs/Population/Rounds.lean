import TangledPrograms.Proofs.Population.Command
import TangledPrograms.Proofs.Population.Edits
import TangledPrograms.Proofs.Population.Proposal
import TangledPrograms.Proofs.Random.Fair

/-!
# Invariants of rounds

An invariant of the report and the population is kept by a step of a round if it is kept by the change
that the step makes to a live learner, and what all steps keep is kept by all rounds. Beside it goes
what holds of the reason and the population where a step is refused.
-/

namespace TangledPrograms

/-- What is left has `I` with the answer, or `R` with the reason of a refusal. -/
def Edited.Satisfies {α : Type} (I : α → Population → Prop) (R : PopulationError → Population → Prop) :
    Edited α → Prop
  | .done a p => I a p
  | .refused e p => R e p

namespace Population

/-- The mutation of an action comes to a refusal, to no change, or to a change of the action for one
that does not agree with it, and whose target is not the parent. -/
theorem mutateAction_meets_anew {E : Halt → Prop} (hE : E .starved) {P : Edited Bool → Prop}
    {p : Population} {l : LearnerId} {parent : Option TeamId} {pool : List AtomicAction}
    (hdead : p.learners.find? l = none → P (.refused (.unknownLearner l) p))
    (hsame : P (.done false p))
    (hrefused : ∀ action e q, p.Targets action → p.rewire l action = .refused e q → P (.refused e q))
    (hdone : ∀ learner action q, p.learners.find? l = some learner →
      action.agrees learner.action = false → action.target? = none ∨ action.target? ≠ parent →
      p.rewire l action = .done () q → P (.done true q)) :
    (p.mutateAction l parent pool).Meets E P := by
  simp only [mutateAction]
  cases hl : p.learners.find? l with
  | none => exact .pure (hdead hl)
  | some learner =>
    refine ((ActionMutation.yields_propose p learner.action parent pool).meets hE).bind fun o ho => ?_
    cases o with
    | none => exact .pure hsame
    | some action =>
      have htargets : p.Targets action := fun t ht =>
        OrderedMap.contains_iff.2 (ActionMutation.exists_candidate (ho action rfl t ht))
      have houtside : action.target? = none ∨ action.target? ≠ parent := by
        cases ht : action.target? with
        | none => exact .inl rfl
        | some t => exact .inr (ActionMutation.ne_parent_of_candidate (ho action rfl t ht))
      dsimp only
      split
      · exact .pure hsame
      · have hanew : action.agrees learner.action = false := eq_false_of_ne_true ‹_›
        cases hrewire : p.rewire l action with
        | done _ q => exact .pure (hdone learner action q hl hanew houtside hrewire)
        | refused e q => exact .pure (hrefused action e q htargets hrewire)

theorem mutateAction_meets_outside {E : Halt → Prop} (hE : E .starved) {P : Edited Bool → Prop}
    {p : Population} {l : LearnerId} {parent : Option TeamId} {pool : List AtomicAction}
    (hdead : p.learners.find? l = none → P (.refused (.unknownLearner l) p))
    (hsame : P (.done false p))
    (hrefused : ∀ action e q, p.Targets action → p.rewire l action = .refused e q → P (.refused e q))
    (hdone : ∀ action q, action.target? = none ∨ action.target? ≠ parent →
      p.rewire l action = .done () q → P (.done true q)) :
    (p.mutateAction l parent pool).Meets E P :=
  mutateAction_meets_anew hE hdead hsame hrefused fun _ action q _ _ => hdone action q

/-- The mutation of an action comes to a refusal, to no change, or to a change of the action. -/
theorem mutateAction_meets {E : Halt → Prop} (hE : E .starved) {P : Edited Bool → Prop}
    {p : Population} {l : LearnerId} {parent : Option TeamId} {pool : List AtomicAction}
    (hdead : p.learners.find? l = none → P (.refused (.unknownLearner l) p))
    (hsame : P (.done false p))
    (hrefused : ∀ action e q, p.Targets action → p.rewire l action = .refused e q → P (.refused e q))
    (hdone : ∀ action q, p.rewire l action = .done () q → P (.done true q)) :
    (p.mutateAction l parent pool).Meets E P :=
  mutateAction_meets_outside hE hdead hsame hrefused fun action q _ => hdone action q

variable {E : Halt → Prop} {I J K : MutationReport → Population → Prop}
  {R : PopulationError → Population → Prop}

/-- Where `I` holds the step leads to `J`, is refused only where `R` holds, and halts only for reasons
in `E`. -/
def RoundStep.Leads (step : RoundStep) (E : Halt → Prop) (I J : MutationReport → Population → Prop)
    (R : PopulationError → Population → Prop) : Prop :=
  ∀ report p, I report p → (step report p).Meets E (Edited.Satisfies J R)

namespace RoundStep.Leads

section steps

variable {l : LearnerId}
  (hdead : ∀ report p, I report p → p.learners.find? l = none → R (.unknownLearner l) p)
include hdead

theorem mutateProgram {corpus : Option UniquenessCorpus}
    (h : ∀ report p learner, I report p → p.learners.find? l = some learner →
      (learner.program.mutate p.settings.mutation p.ranges corpus).Meets E fun o =>
        J (if o.1.changed then { report with program := some o.1 } else report)
          (p.modifyLearner l fun learner => { learner with program := o.2 })) :
    (mutateProgram l corpus).Leads E I J R := by
  intro report p hI
  simp only [Population.mutateProgram]
  cases hl : p.learners.find? l with
  | none => exact .pure (hdead report p hI hl)
  | some learner => exact (h report p learner hI hl).bind fun o ho => .pure ho

theorem toggleMode
    (h : ∀ report p learner, I report p → p.learners.find? l = some learner →
      J { report with modeToggled := true }
        (p.modifyLearner l fun learner => { learner with mode := learner.mode.toggle })) :
    (toggleMode l).Leads E I J R := by
  intro report p hI
  simp only [Population.toggleMode]
  cases hl : p.learners.find? l with
  | none => exact .pure (hdead report p hI hl)
  | some learner => exact .pure (h report p learner hI hl)

theorem changeAction (hE : E .starved) {scope : MutationScope}
    (hsame : ∀ report p, I report p → J report p)
    (hrefused : ∀ report p action e q, I report p → p.Targets action →
      p.rewire l action = .refused e q → R e q)
    (hdone : ∀ report p learner action q, I report p → p.learners.find? l = some learner →
      action.agrees learner.action = false → action.target? = none ∨ action.target? ≠ scope.parent →
      p.rewire l action = .done () q → J { report with actionChanged := true } q) :
    (changeAction l scope).Leads E I J R := by
  intro report p hI
  refine (mutateAction_meets_anew (P := Edited.Satisfies (fun changed q =>
    J { report with actionChanged := report.actionChanged || changed } q) R) hE ?_ ?_ ?_ ?_).bind
      fun e he => ?_
  · exact hdead report p hI
  · simp only [Edited.Satisfies, Bool.or_false]
    exact hsame report p hI
  · exact fun action e q => hrefused report p action e q hI
  · intro learner action q hl hanew houtside hrewire
    simp only [Edited.Satisfies, Bool.or_true]
    exact hdone report p learner action q hI hl hanew houtside hrewire
  · cases e with
    | done changed q => exact .pure he
    | refused e q => exact .pure he

theorem changeGroup (hE : E .starved) (hsame : ∀ report p, I report p → J report p)
    (hdone : ∀ report p learner (group : UInt32), I report p → p.learners.find? l = some learner →
      group < .ofNat p.settings.registers.sharedGroups → group ≠ .ofNat learner.group →
      J { report with groupChanged := true }
        (p.modifyLearner l fun learner => { learner with group := group.toNat })) :
    (changeGroup l).Leads E I J R := by
  intro report p hI
  simp only [Population.changeGroup]
  cases hl : p.learners.find? l with
  | none => exact .pure (hdead report p hI hl)
  | some learner =>
    refine ((Draw.yields_resampleDifferent _ _).meets hE).bind fun o ho => ?_
    cases o with
    | none => exact .pure (hsame report p hI)
    | some group =>
      obtain ⟨hlt, hne⟩ := ho group rfl
      exact .pure (hdone report p learner group hI hl hlt hne)

theorem moveAddressing
    (h : ∀ report p learner, I report p → p.learners.find? l = some learner →
      learner.addressing.perturb.Meets E fun o =>
        J { report with addressingMoved := report.addressingMoved || o.1 }
          (p.modifyLearner l fun learner => { learner with addressing := o.2 })) :
    (moveAddressing l).Leads E I J R := by
  intro report p hI
  simp only [Population.moveAddressing]
  cases hl : p.learners.find? l with
  | none => exact .pure (hdead report p hI hl)
  | some learner => exact (h report p learner hI hl).bind fun o ho => .pure ho

end steps

theorem onCoin (hE : E .starved) {step : RoundStep} (hskip : ∀ report p, I report p → J report p)
    (hstep : step.Leads E I J R) (probability : Float) : (onCoin probability step).Leads E I J R := by
  intro report p h
  refine ((Draw.yields_toss probability).meets hE).bind fun shown _ => ?_
  split
  · exact hstep report p h
  · exact .pure (hskip report p h)

theorem inOrder_nil : (inOrder []).Leads E I I R := fun _ _ h => .pure h

theorem inOrder_cons {step : RoundStep} {rest : List RoundStep} (hstep : step.Leads E I J R)
    (hrest : (inOrder rest).Leads E J K R) : (inOrder (step :: rest)).Leads E I K R := by
  intro report p h
  refine (hstep report p h).bind fun e he => ?_
  cases e with
  | done report p => exact hrest report p he
  | refused e p => exact .pure he

end RoundStep.Leads

/-- The step keeps `I`, is refused only where `R` holds, and halts only for reasons in `E`. -/
abbrev RoundStep.Meets (step : RoundStep) (E : Halt → Prop) (I : MutationReport → Population → Prop)
    (R : PopulationError → Population → Prop) : Prop := step.Leads E I I R

namespace RoundStep.Meets

section steps

variable {l : LearnerId}
  (hdead : ∀ report p, I report p → p.learners.find? l = none → R (.unknownLearner l) p)
include hdead

theorem changeAction_outside (hE : E .starved) {scope : MutationScope}
    (hkept : ∀ report p changed, I report p → I { report with actionChanged := changed } p)
    (hrefused : ∀ report p action e q, I report p → p.Targets action →
      p.rewire l action = .refused e q → R e q)
    (hdone : ∀ report p action q, I report p → action.target? = none ∨ action.target? ≠ scope.parent →
      p.rewire l action = .done () q → I report q) :
    (changeAction l scope).Meets E I R :=
  Leads.changeAction hdead hE (fun _ _ => id) hrefused
    fun report p _ action q hI _ _ houtside hrewire =>
      hkept report q true (hdone report p action q hI houtside hrewire)

theorem changeAction (hE : E .starved) {scope : MutationScope}
    (hkept : ∀ report p changed, I report p → I { report with actionChanged := changed } p)
    (hrefused : ∀ report p action e q, I report p → p.Targets action →
      p.rewire l action = .refused e q → R e q)
    (hdone : ∀ report p action q, I report p → p.rewire l action = .done () q → I report q) :
    (changeAction l scope).Meets E I R :=
  changeAction_outside hdead hE hkept hrefused fun report p action q hI _ =>
    hdone report p action q hI

theorem changeGroup (hE : E .starved)
    (hkept : ∀ report p learner (group : UInt32), I report p → p.learners.find? l = some learner →
      group < .ofNat p.settings.registers.sharedGroups →
      I { report with groupChanged := true }
        (p.modifyLearner l fun learner => { learner with group := group.toNat })) :
    (changeGroup l).Meets E I R :=
  Leads.changeGroup hdead hE (fun _ _ => id) fun report p learner group hI hl hgroup _ =>
    hkept report p learner group hI hl hgroup

end steps

theorem onCoin (hE : E .starved) {step : RoundStep} (hstep : step.Meets E I R) (probability : Float) :
    (onCoin probability step).Meets E I R := Leads.onCoin hE (fun _ _ => id) hstep probability

theorem inOrder {steps : List RoundStep} (hsteps : ∀ step ∈ steps, step.Meets E I R) :
    (inOrder steps).Meets E I R := by
  induction steps with
  | nil => exact Leads.inOrder_nil
  | cons step rest ih =>
    rw [List.forall_mem_cons] at hsteps
    exact Leads.inOrder_cons hsteps.1 (ih hsteps.2)

variable {s : Settings} {l : LearnerId} {scope : MutationScope} {corpus : Option UniquenessCorpus}

theorem mutationRounds (hsettings : ∀ report p, I report p → p.settings = s)
    (hcount : ∀ report p rounds, I report p → I { report with rounds } p)
    (hsteps : ∀ step ∈ roundSteps s l scope corpus, step.Meets E I R) (rounds : Nat) :
    (mutationRounds l scope corpus rounds).Meets E I R := by
  intro report p h
  induction rounds generalizing report p with
  | zero => exact .pure h
  | succ rounds ih =>
    simp only [Population.mutationRounds]
    rw [hsettings report p h]
    refine (inOrder hsteps _ p (hcount report p _ h)).bind fun e he => ?_
    cases e with
    | refused e p => exact .pure he
    | done report p =>
      dsimp only
      split
      · exact .pure he
      · exact ih report p he

end RoundStep.Meets

/-- What every step keeps, whatever the corpus, is kept by the mutation of a learner. -/
theorem mutateLearner_meets {p : Population} {l : LearnerId} {scope : MutationScope}
    (hR : ∀ e, p.uniquenessCorpus l scope.references = .error e → R e p) (hI : I {} p) (hsettings : ∀ report q, I report q → q.settings = p.settings)
    (hcount : ∀ report p rounds, I report p → I { report with rounds } p)
    (hsteps : ∀ corpus, ∀ step ∈ roundSteps p.settings l scope corpus, step.Meets E I R) :
    (p.mutateLearner l scope).Meets E (Edited.Satisfies I R) := by
  simp only [mutateLearner]
  split
  · exact RoundStep.Meets.mutationRounds hsettings hcount (hsteps _) _ _ p hI
  · split
    · exact .pure (hR _ ‹_›)
    · exact RoundStep.Meets.mutationRounds hsettings hcount (hsteps _) _ _ p hI

end Population

end TangledPrograms
