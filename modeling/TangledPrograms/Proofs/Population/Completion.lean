import TangledPrograms.Proofs.Population.Laws
import TangledPrograms.Proofs.Population.Perturbation
import TangledPrograms.Proofs.Program.Mutation
import TangledPrograms.Proofs.Snapshot.Decoding

/-!
# Mutations can come to an end

A mutation draws until it is lucky: words are rejected, shifts that are all zero are drawn again, and
vectors are moved while a coin shows it. On programs with an instruction and on windows that can be
wrapped, some words bring every part of a mutation to an end, and so the whole of it, unless each of
its rounds is certain to enter the trap in which the moves of a vector go on for ever. Then no words do.
-/

namespace TangledPrograms

open Draw

theorem WindowAddressing.canAnswer_perturb {w : WindowAddressing}
    (h : ¬Window.Unwrappable w.anchor w.shape) : w.perturb.CanAnswer := by
  rw [perturb]
  split
  · exact .pure _
  · refine (canAnswer_nonzeroShift _ (by decide)).bind fun shift => ?_
    dsimp only
    rw [Window.expand?_of_wrappable (mt Window.unwrappable_moveAnchor.1 h)]
    exact .pure _

theorem MultiWindowAddressing.canAnswer_perturb {w : MultiWindowAddressing}
    (h : ∀ a ∈ w.anchors, ¬Window.Unwrappable a w.shape) (hstep : w.step < 2 ^ 63) :
    w.perturb.CanAnswer := by
  have hmoved : (w.anchors.mapM fun a : List Nat => if a.isEmpty then pure a
      else do pure (Window.moveAnchor a (← nonzeroShift a.length w.step) w.shape)).CanAnswer := by
    refine .mapM (fun a => ?_) _
    split
    · exact .pure _
    · exact (canAnswer_nonzeroShift _ hstep).bind fun _ => .pure _
  rw [perturb]
  refine hmoved.bind_of_ensures (ensures_wrappable h) fun anchors hanchors => ?_
  split
  · exact .pure _
  · rw [expandAll?_of_wrappable hanchors]
    exact .pure _

/-- Windows that can be wrapped can be moved by steps that are not negative as signed words. -/
theorem Addressing.Clear.canAnswer_perturb {a : Addressing} (h : a.Clear) (hstep : a.StepFits) :
    a.perturb.CanAnswer := by
  cases a with
  | full => exact .pure _
  | window w => exact (w.canAnswer_perturb (h w.anchor List.mem_cons_self)).bind fun _ => .pure _
  | multiWindow w => exact (w.canAnswer_perturb h hstep).bind fun _ => .pure _

theorem MutationReport.actionChanged_of_not_changed {report : MutationReport}
    (h : report.changed = false) : report.actionChanged = false := by
  simp only [MutationReport.changed, Bool.or_eq_false_iff] at h
  exact h.1.1.2

/-- A trap can be seen from the settings and the teams. -/
theorem ActionMutation.Traps.congr {p q : Population} {current : Action} {parent : Option TeamId}
    {pool : List AtomicAction} (h : Traps p current parent pool) (hsettings : q.settings = p.settings)
    (hteams : q.teams = p.teams) : Traps q current parent pool := by
  constructor
  case atomic =>
    rw [hsettings, candidates, hteams]
    exact h.atomic
  case nonempty => exact h.nonempty
  case vectors => exact h.vectors
  case certain =>
    rw [hsettings]
    exact h.certain
  case starts =>
    rw [hsettings]
    exact h.starts

namespace Population

/-- Every round is certain to mutate the action, and that is a trap. -/
structure Ensnared (p : Population) (l : LearnerId) (scope : MutationScope) : Prop where
  certain : 1.0 ≤ p.settings.mutation.action.toFloat
  trapped : p.Trapped l scope.parent scope.pool

variable {E : Halt → Prop} {I J : MutationReport → Population → Prop}
  {R : PopulationError → Population → Prop} {s : Settings} {p q : Population} {l : LearnerId}
  {scope : MutationScope} {corpus : Option UniquenessCorpus}

/-- Whether it is ensnared can be seen from a learner's action, not from its other parts. -/
theorem ensnared_modifyLearner (k : LearnerId) {f : Learner → Learner}
    (hf : ∀ learner, (f learner).action = learner.action) :
    (p.modifyLearner k f).Ensnared l scope ↔ p.Ensnared l scope := by
  have haction : ∀ learner, (if l = k then f learner else learner).action = learner.action := by
    intro learner
    split
    · exact hf learner
    · rfl
  constructor
  · rintro ⟨hcertain, learner, hl, htraps⟩
    rw [find?_modifyLearner] at hl
    obtain ⟨old, hold, rfl⟩ := Option.map_eq_some_iff.1 hl
    rw [haction] at htraps
    exact ⟨hcertain, old, hold, htraps.congr rfl rfl⟩
  · rintro ⟨hcertain, learner, hl, htraps⟩
    refine ⟨hcertain, _, by rw [find?_modifyLearner, hl, Option.map_some], ?_⟩
    rw [haction]
    exact htraps.congr rfl rfl

section order

theorem inOrder_append (before after : List RoundStep) (report : MutationReport) (p : Population) :
    inOrder (before ++ after) report p = inOrder before report p >>= fun
      | .done report p => inOrder after report p
      | .refused e p => pure (.refused e p) := by
  induction before generalizing report p with
  | nil => rfl
  | cons step before ih =>
    rw [List.cons_append, inOrder, inOrder, bind_assoc]
    congr 1
    funext e
    cases e with
    | done report p => exact ih report p
    | refused e p => rfl

/-- All steps but that of the action keep what does not depend on a learner's other parts, nor on what
is reported of them. -/
theorem meets_otherSteps (hdead : ∀ report q, I report q → q.learners.find? l = none →
      R (.unknownLearner l) q)
    (hkept : ∀ (report : MutationReport) q program modeToggled groupChanged addressingMoved
      (f : Learner → Learner), I report q → (∀ learner, (f learner).action = learner.action) →
        I { report with program, modeToggled, groupChanged, addressingMoved } (q.modifyLearner l f)) :
    ∀ step ∈ programSteps s l corpus ++ placeSteps s l, step.Meets (fun _ => True) I R := by
  refine forall_mem_otherSteps (fun hstep => .onCoin trivial hstep) (.mutateProgram hdead ?_)
    (fun _ => .toggleMode hdead ?_) (.changeGroup hdead trivial ?_) (.moveAddressing hdead ?_)
  · refine fun report q _ h _ => Draw.meets_of_forall fun o => ?_
    split
    · exact hkept report q _ _ _ _ _ h fun _ => rfl
    · exact hkept report q _ _ _ _ _ h fun _ => rfl
  · exact fun report q _ h _ => hkept report q _ _ _ _ _ h fun _ => rfl
  · exact fun report q _ _ h _ _ => hkept report q _ _ _ _ _ h fun _ => rfl
  · exact fun report q _ h _ => Draw.meets_of_forall fun _ => hkept report q _ _ _ _ _ h fun _ => rfl

end order

section ensnared

/-- The coin is certain to show the mutation of the action, which does not end. -/
theorem Ensnared.ensures_action (hm : p.settings.mutation.check = .ok ()) (h : p.Ensnared l scope)
    (report : MutationReport) :
    (onCoin p.settings.mutation.action.toFloat (changeAction l scope) report p).Ensures
      fun _ => False := by
  have hp := MutationSettings.isProbability_rate hm .action
  have hnone : (p.mutateAction l scope.parent scope.pool).Ensures fun _ => False := by
    intro source e source' he
    cases (h.trapped.starves hm source).symm.trans he
  refine (yields_coin hp).ensures.bind fun shown hshown => ?_
  cases shown with
  | false =>
    exact absurd hshown ((Number.not_lt_iff (isFinite_of_isProbability hp) (by decide)).2 h.certain)
  | true => exact hnone.bind fun _ hfalse => hfalse.elim

/-- The steps before that of the action leave the snare as it is, so no round comes to an end. -/
theorem Ensnared.ensures_inOrder (hm : s.mutation.check = .ok ()) (hs : p.settings = s)
    (h : p.Ensnared l scope) (report : MutationReport) :
    (inOrder (roundSteps s l scope corpus) report p).Ensures fun _ => False := by
  have hkept : (inOrder (programSteps s l corpus)).Meets (fun _ => True)
      (fun _ q => q.settings = s ∧ q.Ensnared l scope) fun _ _ => False := by
    refine .inOrder fun step hstep => meets_otherSteps (fun _ q hq hl => ?_)
      (fun _ q _ _ _ _ f hq hf => ?_) step (List.mem_append_left _ hstep)
    · obtain ⟨learner, hlive, -⟩ := hq.2.trapped
      cases hl.symm.trans hlive
    · exact ⟨hq.1, (ensnared_modifyLearner l hf).2 hq.2⟩
  rw [roundSteps_eq, inOrder_append]
  refine (hkept report p ⟨hs, h⟩).ensures.bind fun e he => ?_
  cases e with
  | refused e q => exact he.elim
  | done report q =>
    obtain ⟨rfl, hq⟩ := he
    exact (hq.ensures_action hm report).bind fun _ hfalse => hfalse.elim

/-- A mutation that is ensnared answers nothing, but that a reference is not live. -/
theorem Ensnared.ensures_mutateLearner (hm : p.settings.mutation.check = .ok ())
    (h : p.Ensnared l scope) :
    (p.mutateLearner l scope).Ensures fun e => ∃ reason q, e = .refused reason q := by
  obtain ⟨rounds, hrounds⟩ :=
    Nat.exists_eq_succ_of_ne_zero (MutationSettings.maxChangeAttempts_ne_zero hm)
  have hnone : ∀ corpus,
      (mutationRounds l scope corpus p.settings.mutation.maxChangeAttempts {} p).Ensures
        fun e => ∃ reason q, e = .refused reason q := by
    intro corpus
    rw [hrounds, mutationRounds]
    exact (h.ensures_inOrder hm rfl _).bind fun _ hfalse => hfalse.elim
  simp only [mutateLearner]
  split
  · exact hnone none
  · split
    · exact .pure ⟨_, _, rfl⟩
    · exact hnone _

end ensnared

/-- Wherever `I` holds, some words bring the step to an end. -/
def RoundStep.CanEnd (step : RoundStep) (I : MutationReport → Population → Prop) : Prop :=
  ∀ report p, I report p → (step report p).CanAnswer

namespace RoundStep.CanEnd

theorem mono {step : RoundStep} (h : step.CanEnd J) (hIJ : ∀ report p, I report p → J report p) :
    step.CanEnd I := fun report p hI => h report p (hIJ report p hI)

theorem mutateProgram
    (h : ∀ report p learner, I report p → p.learners.find? l = some learner →
      learner.program.code ≠ []) : (mutateProgram l corpus).CanEnd I := by
  intro report p hI
  simp only [Population.mutateProgram]
  cases hl : p.learners.find? l with
  | none => exact .pure _
  | some learner =>
    have hcode := h report p learner hI hl
    exact (Program.canAnswer_mutate hcode p.settings.mutation p.ranges corpus).bind fun _ => .pure _

theorem toggleMode (I : MutationReport → Population → Prop) : (toggleMode l).CanEnd I := by
  intro report p _
  simp only [Population.toggleMode]
  cases p.learners.find? l <;> exact .pure _

theorem changeAction
    (h : ∀ report p, I report p → (p.mutateAction l scope.parent scope.pool).CanAnswer) :
    (changeAction l scope).CanEnd I := by
  intro report p hI
  refine (h report p hI).bind fun e => ?_
  cases e <;> exact .pure _

theorem changeGroup (I : MutationReport → Population → Prop) : (changeGroup l).CanEnd I := by
  intro report p _
  simp only [Population.changeGroup]
  cases p.learners.find? l with
  | none => exact .pure _
  | some learner =>
    refine (canAnswer_resampleDifferent _ _).bind fun o => ?_
    cases o <;> exact .pure _

theorem moveAddressing
    (h : ∀ report p learner, I report p → p.learners.find? l = some learner →
      learner.addressing.perturb.CanAnswer) : (moveAddressing l).CanEnd I := by
  intro report p hI
  simp only [Population.moveAddressing]
  cases hl : p.learners.find? l with
  | none => exact .pure _
  | some learner => exact (h report p learner hI hl).bind fun _ => .pure _

theorem onCoin {step : RoundStep} (hstep : step.CanEnd I) (probability : Float) :
    (onCoin probability step).CanEnd I := by
  intro report p hI
  refine (canAnswer_coin probability).bind fun shown => ?_
  split
  · exact hstep report p hI
  · exact .pure _

/-- A step need not be taken if its coin can show false. -/
theorem onCoin_of_lt_one {probability : Float} (hp : isProbability probability = true)
    (h : probability < 1.0) (step : RoundStep) : (Population.onCoin probability step).CanEnd I :=
  fun _ _ _ => (answers_coin_false hp h).canAnswer (.pure _)

/-- The first step is taken where `I` holds, the others where the weaker `J` does, which it keeps. -/
theorem cons {step : RoundStep} {rest : List RoundStep} (hIJ : ∀ report p, I report p → J report p)
    (hkept : step.Meets E J R) (hstep : step.CanEnd I) (hrest : (inOrder rest).CanEnd J) :
    (inOrder (step :: rest)).CanEnd I := by
  intro report p h
  refine (hstep report p h).bind_of_ensures (hkept report p (hIJ report p h)).ensures fun e he => ?_
  cases e with
  | done report p => exact hrest report p he
  | refused e p => exact .pure _

theorem inOrder {steps : List RoundStep} (hkept : ∀ step ∈ steps, step.Meets E I R)
    (hends : ∀ step ∈ steps, step.CanEnd I) : (inOrder steps).CanEnd I := by
  induction steps with
  | nil => exact fun _ _ _ => .pure _
  | cons step rest ih =>
    rw [List.forall_mem_cons] at hkept hends
    exact .cons (fun _ _ h => h) hkept.1 hends.1 (ih hkept.2 hends.2)

theorem append {before after : List RoundStep} (hkept : ∀ step ∈ before, step.Meets E I R)
    (hbefore : ∀ step ∈ before, step.CanEnd I) (hafter : (Population.inOrder after).CanEnd I) :
    (Population.inOrder (before ++ after)).CanEnd I := by
  intro report p h
  rw [inOrder_append]
  have hbetween := (RoundStep.Meets.inOrder hkept report p h).ensures
  refine (inOrder hkept hbefore report p h).bind_of_ensures hbetween fun e he => ?_
  cases e with
  | done report p => exact hafter report p he
  | refused e p => exact .pure _

/-- Rounds can be made if each can come to an end and keeps `I` where it changes nothing. -/
theorem mutationRounds
    (hround : ∀ report p, I report p →
      (Population.inOrder (roundSteps p.settings l scope corpus)
        { report with rounds := report.rounds + 1 } p).CanAnswer ∧
      (Population.inOrder (roundSteps p.settings l scope corpus)
        { report with rounds := report.rounds + 1 } p).Ensures
          (Edited.Satisfies (fun report p => report.changed = false → I report p) fun _ _ => True))
    (rounds : ℕ) : (mutationRounds l scope corpus rounds).CanEnd I := by
  intro report p h
  induction rounds generalizing report p with
  | zero => exact .pure _
  | succ rounds ih =>
    simp only [Population.mutationRounds]
    obtain ⟨hcan, hkept⟩ := hround report p h
    refine hcan.bind_of_ensures hkept fun e he => ?_
    cases e with
    | refused e p => exact .pure _
    | done report p =>
      dsimp only
      split
      · exact .pure _
      · exact ih report p (he (by simpa using ‹¬report.changed = true›))

end RoundStep.CanEnd

/-- What a step keeps besides, on its own account. -/
theorem RoundStep.Meets.and {step : RoundStep} {R' : PopulationError → Population → Prop}
    (h : step.Meets E I R) (h' : step.Meets (fun _ => True) J R') :
    step.Meets E (fun report p => I report p ∧ J report p) fun e p => R e p ∧ R' e p := by
  intro report p hI
  refine ((h report p hI.1).and_ensures (h' report p hI.2).ensures).mono fun e he => ?_
  cases e <;> exact he

/-- `K` holds, the action is as it was, and it is not ensnared. -/
abbrev Unsnared (K : Population → Prop) (l : LearnerId) (scope : MutationScope)
    (report : MutationReport) (p : Population) : Prop :=
  K p ∧ report.actionChanged = false ∧ ¬ p.Ensnared l scope

section free

variable {K : Population → Prop}

/-- What is not ensnared stays so until the action is changed. -/
theorem meets_roundSteps_free (s : Settings) (l : LearnerId) (scope : MutationScope)
    (corpus : Option UniquenessCorpus) : ∀ step ∈ roundSteps s l scope corpus,
      step.Meets (fun _ => True) (fun report q => report.actionChanged = false → ¬ q.Ensnared l scope)
        fun _ _ => True := by
  have hother : ∀ step ∈ programSteps s l corpus ++ placeSteps s l, step.Meets (fun _ => True)
      (fun report q => report.actionChanged = false → ¬ q.Ensnared l scope) fun _ _ => True :=
    meets_otherSteps (fun _ _ _ _ => trivial) fun _ _ _ _ _ _ _ h hf hunchanged =>
      mt (ensnared_modifyLearner l hf).1 (h hunchanged)
  have haction : (changeAction l scope).Meets (fun _ => True)
      (fun report q => report.actionChanged = false → ¬ q.Ensnared l scope) fun _ _ => True := by
    intro report q h
    have hmutate : (q.mutateAction l scope.parent scope.pool).Meets (fun _ => True)
        (Edited.Satisfies (fun changed q' => changed = false → q' = q) fun _ _ => True) :=
      mutateAction_meets trivial (fun _ => trivial) (fun _ => rfl) (fun _ _ _ _ _ => trivial)
        fun _ _ _ hfalse => Bool.noConfusion hfalse
    refine hmutate.bind fun e he => ?_
    cases e with
    | refused e q' => exact .pure trivial
    | done changed q' =>
      refine .pure fun hunchanged => ?_
      rw [Bool.or_eq_false_iff] at hunchanged
      rw [he hunchanged.2]
      exact h hunchanged.1
  rw [List.forall_mem_append] at hother
  rw [roundSteps_eq, List.forall_mem_append, List.forall_mem_cons]
  exact ⟨hother.1, .onCoin trivial haction _, hother.2⟩

/-- The action is mutated outside of a trap, or it need not be mutated. -/
theorem canEnd_action (hm : s.mutation.check = .ok ()) (hpool : scope.pool.length < UInt64.size)
    (hsettings : ∀ q, K q → q.settings = s) :
    (onCoin s.mutation.action.toFloat (changeAction l scope)).CanEnd (Unsnared K l scope) := by
  have hp := MutationSettings.isProbability_rate hm .action
  by_cases hcoin : s.mutation.action.toFloat < 1.0
  · exact .onCoin_of_lt_one hp hcoin _
  · refine .onCoin (.changeAction fun report q hq => ?_) _
    obtain rfl := hsettings q hq.1
    have hcertain := (Number.not_lt_iff (isFinite_of_isProbability hp) (by decide)).1 hcoin
    exact canAnswer_mutateAction hm hpool fun htrapped => hq.2.2 ⟨hcertain, htrapped⟩

variable (hkept : ∀ step ∈ roundSteps s l scope corpus, step.Meets E (fun _ => K) R)
include hkept

/-- A round that is not ensnared can come to an end if the program and the windows can be changed. -/
theorem canEnd_round (hm : s.mutation.check = .ok ()) (hpool : scope.pool.length < UInt64.size)
    (hsettings : ∀ q, K q → q.settings = s)
    (hprogram : ∀ q learner, K q → q.learners.find? l = some learner → learner.program.code ≠ [])
    (haddressing : ∀ q learner, K q → q.learners.find? l = some learner →
      learner.addressing.perturb.CanAnswer) :
    (inOrder (roundSteps s l scope corpus)).CanEnd (Unsnared K l scope) := by
  have hother : ∀ step ∈ programSteps s l corpus ++ placeSteps s l, step.CanEnd fun _ => K :=
    forall_mem_otherSteps (fun hstep => hstep.onCoin) (.mutateProgram fun _ => hprogram)
      (fun _ => .toggleMode _) (.changeGroup _) (.moveAddressing fun _ => haddressing)
  have hstill : ∀ step ∈ programSteps s l corpus ++ placeSteps s l, step.Meets (fun _ => True)
      (fun report q => report.actionChanged = false ∧ ¬ q.Ensnared l scope) fun _ _ => True :=
    meets_otherSteps (fun _ _ _ _ => trivial) fun _ _ _ _ _ _ _ h hf =>
      ⟨h.1, mt (ensnared_modifyLearner l hf).1 h.2⟩
  rw [roundSteps_eq, List.forall_mem_append, List.forall_mem_cons] at hkept
  rw [List.forall_mem_append] at hother hstill
  have hafter : (inOrder (onCoin s.mutation.action.toFloat (changeAction l scope) ::
      placeSteps s l)).CanEnd (Unsnared K l scope) :=
    .cons (fun _ _ h => h.1) hkept.2.1 (canEnd_action hm hpool hsettings)
      (.inOrder hkept.2.2 hother.2)
  rw [roundSteps_eq]
  exact .append (fun step hstep => (hkept.1 step hstep).and (hstill.1 step hstep))
    (fun step hstep => (hother.1 step hstep).mono fun _ _ h => h.1) hafter

/-- A round that changes nothing leads into no snare. -/
theorem ensures_round_unsnared {report : MutationReport} (h : Unsnared K l scope report p) :
    (inOrder (roundSteps s l scope corpus) report p).Ensures (Edited.Satisfies
      (fun report q => report.changed = false → Unsnared K l scope report q) fun _ _ => True) := by
  have hround := RoundStep.Meets.inOrder fun step hstep =>
    (hkept step hstep).and (meets_roundSteps_free s l scope corpus step hstep)
  refine (hround report p ⟨h.1, fun _ => h.2.2⟩).ensures.mono fun e he => ?_
  cases e with
  | refused e q => trivial
  | done report q =>
    intro hchanged
    have hunchanged := report.actionChanged_of_not_changed hchanged
    exact ⟨he.1, hunchanged, he.2 hunchanged⟩

end free

/-- Some words bring the mutation of a learner to an end if it is not ensnared, and its steps keep a
property `K` by which they can come to an end. -/
theorem canAnswer_mutateLearner {K : Population → Prop}
    (hm : p.settings.mutation.check = .ok ()) (hpool : scope.pool.length < UInt64.size) (hK : K p)
    (hsettings : ∀ q, K q → q.settings = p.settings)
    (hkept : ∀ corpus, ∀ step ∈ roundSteps p.settings l scope corpus, step.Meets E (fun _ => K) R)
    (hprogram : ∀ q learner, K q → q.learners.find? l = some learner → learner.program.code ≠ [])
    (haddressing : ∀ q learner, K q → q.learners.find? l = some learner →
      learner.addressing.perturb.CanAnswer)
    (hfree : ¬ p.Ensnared l scope) : (p.mutateLearner l scope).CanAnswer := by
  have hrounds : ∀ corpus, (mutationRounds l scope corpus
      p.settings.mutation.maxChangeAttempts {} p).CanAnswer := by
    intro corpus
    refine RoundStep.CanEnd.mutationRounds (I := Unsnared K l scope) (fun report q hq => ?_) _ _ p
      ⟨hK, rfl, hfree⟩
    rw [hsettings q hq.1]
    have hends := canEnd_round (hkept corpus) hm hpool hsettings hprogram haddressing
    exact ⟨hends _ q hq, ensures_round_unsnared (hkept corpus) hq⟩
  simp only [mutateLearner]
  split
  · exact hrounds none
  · split
    · exact .pure _
    · exact hrounds _

end Population

end TangledPrograms
