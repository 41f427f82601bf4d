import TangledPrograms.Proofs.Population.Completion
import TangledPrograms.Proofs.Random.Streams

/-!
# Mutations read on in their stream

Every part of the mutation of a learner takes its words where the part before it has left off. So what
the steps of a round lead to can be said of everything that is begun from some source on.
-/

namespace TangledPrograms

open Draw (Advances)

theorem Instruction.advances_random (r : InstructionRanges) : (Instruction.random r).Advances := by
  have hfield : ∀ f, (drawField r f).Advances := fun f => (Advances.below _ _).bind fun _ => .pure _
  exact (hfield _).bind fun _ => (hfield _).bind fun _ => (hfield _).bind fun _ =>
    (hfield _).bind fun _ => (hfield _).bind fun _ => (hfield _).bind fun _ => .pure _

namespace Program

variable {rates : InstructionRates} {r : InstructionRanges} {m : MutationSettings}

theorem advances_deletePass (rate : Float) (code : List Instruction) :
    (deletePass rate code).Advances := by
  rw [deletePass]
  split
  · exact .pure _
  · refine (Advances.coin rate).bind fun shown => ?_
    split
    · exact (Advances.below _ _).bind fun _ => .pure _
    · exact .pure _

theorem advances_changePass (rate : Float) (code : List Instruction) :
    (changePass rate r code).Advances := by
  refine (Advances.coin rate).bind fun shown => ?_
  split
  · refine (Advances.below _ _).bind fun place => (Advances.choose _).bind fun field => ?_
    split
    · refine (Advances.resampleDifferent _ _).bind fun o => ?_
      cases o <;> exact .pure _
    · exact .pure _
  · exact .pure _

theorem advances_swapPass (rate : Float) (code : List Instruction) :
    (swapPass rate code).Advances := by
  rw [swapPass]
  split
  · exact .pure _
  · refine (Advances.coin rate).bind fun shown => ?_
    split
    · refine (Advances.below _ _).bind fun a => (Advances.below _ _).bind fun b => ?_
      dsimp only
      split <;> exact .pure _
    · exact .pure _

theorem advances_addPass (rate : Float) (code : List Instruction) :
    (addPass rate r code).Advances := by
  rw [addPass]
  split
  · exact .pure _
  · refine (Advances.coin rate).bind fun shown => ?_
    split
    · refine (Advances.below _ _).bind fun place => ?_
      exact (Instruction.advances_random r).bind fun _ => .pure _
    · exact .pure _

theorem advances_mutateInstructions (attempts : ℕ) (code : List Instruction) :
    (mutateInstructions rates r attempts code).Advances := by
  induction attempts generalizing code with
  | zero => exact .pure _
  | succ attempts ih =>
    have hpass : (pass rates r code).Advances :=
      (advances_deletePass _ _).bind fun _ => (advances_changePass _ _).bind fun _ =>
        (advances_swapPass _ _).bind fun _ => (advances_addPass _ _).bind fun _ => .pure _
    refine hpass.bind fun c => ?_
    split
    · exact .pure _
    · exact ih _

theorem advances_seekDistinct (corpus : UniquenessCorpus) (rounds : ℕ) :
    ∀ (changed : Bool) (attempt : ℕ) (p : Program),
      (seekDistinct rates r m corpus changed attempt rounds p).Advances := by
  induction rounds with
  | zero => exact fun _ _ _ => .pure _
  | succ rounds ih =>
    intro changed attempt p
    refine (advances_mutateInstructions _ _).bind fun c => ?_
    dsimp only
    split
    · exact .pure _
    · exact ih _ _ _

theorem advances_repeatPasses (extra : ℕ) : ∀ (passes : ℕ) (code : List Instruction),
    (repeatPasses rates r m passes extra code).Advances := by
  induction extra with
  | zero => exact fun _ _ => .pure _
  | succ extra ih =>
    intro passes code
    refine (Advances.coin _).bind fun shown => ?_
    split
    · exact (advances_mutateInstructions _ _).bind fun c => ih _ _
    · exact .pure _

theorem advances_mutate (p : Program) (m : MutationSettings) (r : InstructionRanges)
    (corpus : Option UniquenessCorpus) : (p.mutate m r corpus).Advances := by
  cases corpus with
  | some corpus => exact advances_seekDistinct corpus _ _ _ _
  | none =>
    refine (advances_mutateInstructions _ _).bind fun first => ?_
    exact (advances_repeatPasses _ _ _).bind fun _ => .pure _

end Program

theorem WindowAddressing.advances_perturb (w : WindowAddressing) : w.perturb.Advances := by
  rw [perturb]
  split
  · exact .pure _
  · exact (Advances.nonzeroShift _ _).bind fun _ => (Advances.ofExcept _).bind fun _ => .pure _

theorem MultiWindowAddressing.advances_perturb (w : MultiWindowAddressing) :
    w.perturb.Advances := by
  have hmoved : ∀ a : List ℕ, (if a.isEmpty then pure a
      else do pure (Window.moveAnchor a (← Draw.nonzeroShift a.length w.step) w.shape) :
        Draw (List ℕ)).Advances := by
    intro a
    split
    · exact .pure _
    · exact (Advances.nonzeroShift _ _).bind fun _ => .pure _
  refine (Advances.mapM hmoved _).bind fun anchors => ?_
  split
  · exact .pure _
  · exact (Advances.ofExcept _).bind fun _ => .pure _

theorem Addressing.advances_perturb (a : Addressing) : a.perturb.Advances := by
  cases a with
  | full => exact .pure _
  | window w => exact w.advances_perturb.bind fun _ => .pure _
  | multiWindow w => exact w.advances_perturb.bind fun _ => .pure _

namespace ActionMutation

variable {m : MutationSettings} {pool : List AtomicAction} {current : Action}

theorem advances_nudgeAll (v : List Binary64) : (nudgeAll m v).Advances := by
  have hnudge : ∀ v, (nudge m v).Advances := fun v =>
    (Advances.below _ _).bind fun _ => (Advances.deviate _).bind fun _ => .pure _
  have hmoves : ∀ moves v, (nudgeRepeatedly m moves v).Advances := by
    intro moves
    induction moves with
    | zero => exact fun _ => .halt _
    | succ moves ih =>
      intro v
      refine (hnudge v).bind fun v => (Advances.coin _).bind fun shown => ?_
      split
      · exact ih v
      · exact .pure v
  exact Advances.remaining.bind fun _ => hmoves _ v

theorem advances_baseVector (swap : Bool) : (baseVector pool swap current).Advances := by
  have hdrawn : (vectorFrom pool).Advances := by
    refine (Advances.choose pool).bind fun o => ?_
    split <;> exact .pure _
  cases swap with
  | true => exact hdrawn
  | false =>
    rcases current with (n | v) | t
    · exact hdrawn
    · exact .pure (some v)
    · exact hdrawn

theorem advances_proposeAtomic : (proposeAtomic m pool current).Advances := by
  rw [proposeAtomic]
  split
  · refine (Advances.coin _).bind fun swap => (advances_baseVector swap).bind fun o => ?_
    cases o with
    | none => exact .pure none
    | some v =>
      have hlast : ∀ move : Bool, (if move && !v.isEmpty then do
          pure (some (.vector (← nudgeAll m v))) else pure (some (.vector v)) :
            Draw (Option AtomicAction)).Advances := by
        intro move
        split
        · exact (advances_nudgeAll v).bind fun _ => .pure _
        · exact .pure _
      cases swap with
      | false => exact hlast true
      | true => exact (Advances.coin _).bind hlast
  · exact .choose _

theorem advances_propose (p : Population) (current : Action) (parent : Option TeamId)
    (pool : List AtomicAction) : (propose p current parent pool).Advances := by
  refine (Advances.coin _).bind fun atomic => ?_
  split
  · exact advances_proposeAtomic.bind fun _ => .pure _
  · exact (Advances.choose _).bind fun _ => .pure _

end ActionMutation

namespace Population

theorem advances_mutateAction (p : Population) (l : LearnerId) (parent : Option TeamId)
    (pool : List AtomicAction) : (p.mutateAction l parent pool).Advances := by
  rw [mutateAction]
  cases p.learners.find? l with
  | none => exact .pure _
  | some learner =>
    refine (ActionMutation.advances_propose p learner.action parent pool).bind fun o => ?_
    split
    · exact .pure _
    · split
      · exact .pure _
      · cases p.rewire l _ <;> exact .pure _

variable {s : Settings} {l : LearnerId} {corpus : Option UniquenessCorpus}

/-- All steps of a round but that of the action; that one is told apart where it matters what it has
read. -/
theorem advances_otherSteps : ∀ step ∈ programSteps s l corpus ++ placeSteps s l,
    ∀ report p, (step report p).Advances := by
  refine forall_mem_otherSteps (fun hstep probability report p => ?_) (fun report p => ?_)
    (fun _ report p => ?_) (fun report p => ?_) (fun report p => ?_)
  · refine (Advances.coin probability).bind fun shown => ?_
    split
    · exact hstep report p
    · exact .pure _
  · rw [mutateProgram]
    cases p.learners.find? l with
    | none => exact .pure _
    | some learner => exact (learner.program.advances_mutate _ _ _).bind fun _ => .pure _
  · rw [toggleMode]
    cases p.learners.find? l <;> exact .pure _
  · rw [changeGroup]
    cases p.learners.find? l with
    | none => exact .pure _
    | some learner =>
      refine (Advances.resampleDifferent _ _).bind fun o => ?_
      cases o <;> exact .pure _
  · rw [moveAddressing]
    cases p.learners.find? l with
    | none => exact .pure _
    | some learner => exact learner.addressing.advances_perturb.bind fun _ => .pure _

section leads

variable {I J K : MutationReport → Population → Prop} {R : PopulationError → Population → Prop}
  {source : Source}

/-- From the source on, the step leads from `I` to `J`, and is refused only where `R` holds. -/
def RoundStep.LeadsFrom (step : RoundStep) (source : Source) (I J : MutationReport → Population → Prop)
    (R : PopulationError → Population → Prop) : Prop :=
  ∀ report q, I report q → (step report q).EnsuresFrom source (Edited.Satisfies J R)

namespace RoundStep.LeadsFrom

theorem of_meets {step : RoundStep} (h : step.Meets (fun _ => True) I R)
    (hadvances : ∀ report q, (step report q).Advances) : step.LeadsFrom source I I R :=
  fun report q hI => (hadvances report q).ensuresFrom (h report q hI).ensures source

theorem onCoin {step : RoundStep} (hskip : ∀ report q, I report q → J report q)
    (hstep : step.LeadsFrom source I J R) (probability : Float) :
    (onCoin probability step).LeadsFrom source I J R := by
  intro report q hI
  refine (Advances.coin probability).thenFrom fun shown => ?_
  split
  · exact hstep report q hI
  · exact .pure (hskip report q hI)

theorem inOrder_cons {step : RoundStep} {rest : List RoundStep} (hstep : step.LeadsFrom source I J R)
    (hrest : (inOrder rest).LeadsFrom source J K R) : (inOrder (step :: rest)).LeadsFrom source I K R := by
  intro report q hI
  refine (hstep report q hI).bind fun e he => ?_
  cases e with
  | done report q => exact hrest report q he
  | refused e q => exact .pure he

theorem inOrder {steps : List RoundStep} (h : ∀ step ∈ steps, step.LeadsFrom source I I R) :
    (inOrder steps).LeadsFrom source I I R := by
  induction steps with
  | nil => exact fun _ _ hI => .pure hI
  | cons step rest ih =>
    rw [List.forall_mem_cons] at h
    exact inOrder_cons h.1 (ih h.2)

theorem append {before after : List RoundStep} (hbefore : (Population.inOrder before).LeadsFrom source I J R)
    (hafter : (Population.inOrder after).LeadsFrom source J K R) :
    (Population.inOrder (before ++ after)).LeadsFrom source I K R := by
  intro report q hI
  rw [inOrder_append]
  refine (hbefore report q hI).bind fun e he => ?_
  cases e with
  | done report q => exact hafter report q he
  | refused e q => exact .pure he

end RoundStep.LeadsFrom

end leads

end Population

end TangledPrograms
