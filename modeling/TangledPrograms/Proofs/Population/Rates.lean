import TangledPrograms.Proofs.Population.Completion
import TangledPrograms.Proofs.Program.Rates

/-!
# Which rates let a learner change

The steps of a round are gated by two coins: that of the program opens the mutation of the program and
the toggle of the mode, that of the action all else. A change can be reported exactly if a coin can open
a step that has something to change. The check of the settings refuses rates that keep both coins shut,
and besides them rates that open the program's coin while no operator on instructions can fire.
-/

namespace TangledPrograms

open Draw

theorem MutationReport.changed_iff {report : MutationReport} : report.changed = true ↔
    (∃ o ∈ report.program, o.changed = true) ∨ report.modeToggled = true ∨
      report.actionChanged = true ∨ report.groupChanged = true ∨ report.addressingMoved = true := by
  simp only [changed, Bool.or_eq_true, or_assoc]
  cases report.program <;> simp

namespace MutationSettings

variable {m : MutationSettings}

/-- Some mutation of a learner under the settings, in a population with vector mode or without, ends
with such a report. -/
def CanReport (m : MutationSettings) (vectorMode : Bool) (P : MutationReport → Prop) : Prop :=
  ∃ (p : Population) (l : LearnerId) (scope : MutationScope) (s s' : Source)
    (report : MutationReport) (q : Population),
    p.settings.mutation = m ∧ p.settings.addressing.vectorMode = vectorMode ∧
      p.mutateLearner l scope s = .ok (.done report q, s') ∧ P report

/-- No mutation of any learner under the settings reports a change. -/
def Inert (m : MutationSettings) : Prop :=
  ∀ vectorMode, ¬ m.CanReport vectorMode (·.changed = true)

theorem InRange.instructionsFixed_iff (h : m.InRange) :
    m.instructionsFixed = true ↔ ¬ (InstructionRates.ofSettings m).Fire := by
  have hdelete : isProbability m.deleteInstruction.toFloat = true := h.rates .deleteInstruction
  have hadd : isProbability m.addInstruction.toFloat = true := h.rates .addInstruction
  have hswap : isProbability m.swapInstruction.toFloat = true := h.rates .swapInstruction
  have hchange : isProbability m.mutateInstruction.toFloat = true := h.rates .mutateInstruction
  simp only [instructionsFixed, List.all_cons, List.all_nil, Bool.and_true, Bool.and_eq_true,
    beq_zero_iff hdelete, beq_zero_iff hadd, beq_zero_iff hswap, beq_zero_iff hchange,
    InstructionRates.Fire, InstructionRates.ofSettings, canShow_true_iff hdelete,
    canShow_true_iff hadd, canShow_true_iff hswap, canShow_true_iff hchange, not_or]
  tauto

end MutationSettings

namespace Population

variable {I : MutationReport → Population → Prop} {R : PopulationError → Population → Prop}
  {s : Settings} {l : LearnerId} {p q : Population} {scope : MutationScope}
  {corpus : Option UniquenessCorpus}

section allowed

/-- What is reported is what the coins of the settings can open. -/
structure Opened (s : Settings) (report : MutationReport) (q : Population) : Prop where
  settings : q.settings = s
  program : report.program ≠ none →
    CanShow s.mutation.program.toFloat true ∧ (InstructionRates.ofSettings s.mutation).Fire
  mode : report.modeToggled = true →
    CanShow s.mutation.program.toFloat true ∧ s.addressing.vectorMode = true
  action : report.actionChanged = true → CanShow s.mutation.action.toFloat true
  group : report.groupChanged = true → CanShow s.mutation.action.toFloat true
  addressing : report.addressingMoved = true → CanShow s.mutation.action.toFloat true

/-- A step is taken only where its coin can show true. -/
theorem RoundStep.Meets.onCoin_of_canShow {probability : Float} {step : RoundStep}
    (h : CanShow probability true → step.Meets (fun _ => True) I R) :
    (Population.onCoin probability step).Meets (fun _ => True) I R := by
  intro report p hI
  refine (spans_coin probability).sound.meets.bind fun shown hshown => ?_
  cases shown with
  | false => exact .pure hI
  | true => exact h hshown report p hI

theorem meets_mutateProgram_opened (hshow : CanShow s.mutation.program.toFloat true) :
    (mutateProgram l corpus).Meets (fun _ => True) (Opened s) fun _ _ => True := by
  refine .mutateProgram (fun _ _ _ _ => trivial) fun report q learner h _ => ?_
  have hchanged : (learner.program.mutate q.settings.mutation q.ranges corpus).Ensures fun o =>
      o.1.changed = true → (InstructionRates.ofSettings s.mutation).Fire := by
    rw [h.settings]
    by_cases hfire : (InstructionRates.ofSettings s.mutation).Fire
    · exact ensures_true.mono fun _ _ _ => hfire
    · refine (Program.ensures_mutate_idle hfire learner.program q.ranges corpus).mono ?_
      intro o ho hchanged
      rw [ho] at hchanged
      cases hchanged
  refine hchanged.meets.mono fun o ho => ?_
  split
  · exact ⟨h.settings, fun _ => ⟨hshow, ho ‹_›⟩, h.mode, h.action, h.group, h.addressing⟩
  · exact ⟨h.settings, h.program, h.mode, h.action, h.group, h.addressing⟩

theorem meets_roundSteps_opened : ∀ step ∈ roundSteps s l scope corpus,
    step.Meets (fun _ => True) (Opened s) fun _ _ => True := by
  have htoggle : ∀ step ∈ if s.addressing.vectorMode then
      [onCoin s.mutation.program.toFloat (toggleMode l)] else [],
      step.Meets (fun _ => True) (Opened s) fun _ _ => True := by
    intro step hstep
    split at hstep
    · obtain rfl := List.mem_singleton.1 hstep
      refine .onCoin_of_canShow fun hshow => .toggleMode (fun _ _ _ _ => trivial) ?_
      exact fun report q learner h _ =>
        ⟨h.settings, h.program, fun _ => ⟨hshow, ‹_›⟩, h.action, h.group, h.addressing⟩
    · cases hstep
  rw [roundSteps_eq, programSteps, placeSteps, List.cons_append, List.forall_mem_cons,
    List.forall_mem_append, List.forall_mem_cons, List.forall_mem_cons, List.forall_mem_singleton]
  refine ⟨.onCoin_of_canShow meets_mutateProgram_opened, htoggle, .onCoin_of_canShow fun hshow => ?_,
    .onCoin_of_canShow fun hshow => ?_, .onCoin_of_canShow fun hshow => ?_⟩
  · refine .changeAction (fun _ _ _ _ => trivial) trivial (fun report q changed h => ?_)
      (fun _ _ _ _ _ _ _ _ => trivial) fun report q action r h hdone => ?_
    · exact ⟨h.settings, h.program, h.mode, fun _ => hshow, h.group, h.addressing⟩
    · exact ⟨(rewire_frame hdone).1.trans h.settings, h.program, h.mode, h.action, h.group,
        h.addressing⟩
  · refine .changeGroup (fun _ _ _ _ => trivial) trivial fun report q learner group h _ _ => ?_
    exact ⟨h.settings, h.program, h.mode, h.action, fun _ => hshow, h.addressing⟩
  · refine .moveAddressing (fun _ _ _ _ => trivial) fun report q learner h _ => ?_
    exact meets_of_forall fun o =>
      ⟨h.settings, h.program, h.mode, h.action, h.group, fun _ => hshow⟩

/-- Whatever a mutation reports, a coin has opened it. -/
theorem opened_mutateLearner {report : MutationReport} {source source' : Source}
    (h : p.mutateLearner l scope source = .ok (.done report q, source')) :
    Opened p.settings report q := by
  have hmeets : (p.mutateLearner l scope).Meets (fun _ => True)
      (Edited.Satisfies (Opened p.settings) fun _ _ => True) := by
    refine mutateLearner_meets (fun _ _ => trivial) ?_ (fun _ _ h => h.settings)
      (fun _ _ _ h => ⟨h.settings, h.program, h.mode, h.action, h.group, h.addressing⟩)
      fun corpus => meets_roundSteps_opened
    exact ⟨rfl, fun h => absurd rfl h, nofun, nofun, nofun, nofun⟩
  exact hmeets.ensures _ _ _ h

end allowed

section solitary

/-- A learner that sees the whole observation, in a population without teams: whatever is mutated, it
comes to an end. -/
structure Solitary (s : Settings) (l : LearnerId) (q : Population) : Prop where
  settings : q.settings = s
  teams : q.teams = .empty
  learner : ∃ learner, q.learners.find? l = some learner ∧ learner.program.code ≠ [] ∧
    learner.addressing = .full

theorem Solitary.of_find? (h : Solitary s l q) {learner : Learner}
    (hl : q.learners.find? l = some learner) :
    learner.program.code ≠ [] ∧ learner.addressing = .full := by
  obtain ⟨live, hlive, hlearner⟩ := h.learner
  rwa [Option.some.inj (hl.symm.trans hlive)]

theorem Solitary.modifyLearner (h : Solitary s l q) {f : Learner → Learner}
    (hf : ∀ learner, q.learners.find? l = some learner → learner.program.code ≠ [] →
      learner.addressing = .full → (f learner).program.code ≠ [] ∧ (f learner).addressing = .full) :
    Solitary s l (q.modifyLearner l f) := by
  obtain ⟨learner, hl, hcode, haddressing⟩ := h.learner
  refine ⟨h.settings, h.teams, f learner, ?_, hf learner hl hcode haddressing⟩
  rw [find?_modifyLearner, hl]
  simp

/-- From an empty pool and without teams nothing is proposed. -/
theorem Solitary.mutateAction_eq (h : Solitary s l q) (parent : Option TeamId) :
    q.mutateAction l parent [] =
      coin q.settings.mutation.actionAtomic.toFloat >>= fun _ => pure (.done false q) := by
  obtain ⟨learner, hl, -⟩ := h.learner
  have hnone : ActionMutation.candidates q learner.action parent = [] := by
    rw [ActionMutation.candidates, h.teams]
    rfl
  simp only [mutateAction, hl, ActionMutation.propose, hnone, List.isEmpty_nil, Bool.or_true, if_true,
    bind_assoc]
  rfl

/-- What has been reported of the program, the mode and the group stays reported. -/
structure Lasting (before after : MutationReport) : Prop where
  program : (∃ o ∈ before.program, o.changed = true) → ∃ o ∈ after.program, o.changed = true
  mode : before.modeToggled = true → after.modeToggled = true
  group : before.groupChanged = true → after.groupChanged = true

theorem Lasting.refl (report : MutationReport) : Lasting report report := ⟨id, id, id⟩

variable {before : MutationReport}

theorem meets_roundSteps_solitary (before : MutationReport) :
    ∀ step ∈ roundSteps s l ⟨none, [], []⟩ none, step.Meets (fun _ => True)
      (fun report q => Lasting before report ∧ Solitary s l q) fun _ _ => False := by
  have hdead : ∀ report q, Lasting before report ∧ Solitary s l q →
      q.learners.find? l = none → False := by
    rintro report q ⟨-, h⟩ hl
    obtain ⟨learner, hlive, -⟩ := h.learner
    cases hl.symm.trans hlive
  refine forall_mem_roundSteps (fun hstep => .onCoin trivial hstep) (.mutateProgram hdead ?_)
    (fun _ => .toggleMode hdead ?_) ?_ (.changeGroup hdead trivial ?_) (.moveAddressing hdead ?_)
  · rintro report q learner ⟨h, hq⟩ hl
    refine (Program.meets_mutate (E := fun _ => True) trivial (fun _ => trivial) _ _ _).mono
      fun o ho => ⟨?_, hq.modifyLearner fun old hold hcode haddressing => ⟨?_, haddressing⟩⟩
    · split
      · exact ⟨fun _ => ⟨o.1, rfl, ‹_›⟩, h.mode, h.group⟩
      · exact h
    · obtain rfl := Option.some.inj (hl.symm.trans hold)
      exact mt ho.nil hcode
  · rintro report q learner ⟨h, hq⟩ _
    exact ⟨⟨h.program, fun _ => rfl, h.group⟩, hq.modifyLearner fun _ _ hcode hfull => ⟨hcode, hfull⟩⟩
  · rintro report q ⟨h, hq⟩
    rw [changeAction, hq.mutateAction_eq, bind_assoc]
    exact ensures_true.meets.bind fun _ _ => .pure ⟨⟨h.program, h.mode, h.group⟩, hq⟩
  · rintro report q learner group ⟨h, hq⟩ _ _
    exact ⟨⟨h.program, h.mode, fun _ => rfl⟩, hq.modifyLearner fun _ _ hcode hfull => ⟨hcode, hfull⟩⟩
  · rintro report q learner ⟨h, hq⟩ hl
    rw [(hq.of_find? hl).2]
    exact .pure ⟨⟨h.program, h.mode, h.group⟩, hq.modifyLearner fun _ _ hcode _ => ⟨hcode, rfl⟩⟩

theorem canEnd_roundSteps_solitary : ∀ step ∈ roundSteps s l ⟨none, [], []⟩ none,
    step.CanEnd fun _ q => Solitary s l q := by
  refine forall_mem_roundSteps (fun hstep => hstep.onCoin) (.mutateProgram ?_)
    (fun _ => .toggleMode _) (.changeAction ?_) (.changeGroup _) (.moveAddressing ?_)
  · exact fun report q learner hq hl => (hq.of_find? hl).1
  · intro report q hq
    rw [hq.mutateAction_eq]
    exact (canAnswer_coin _).bind fun _ => .pure _
  · intro report q learner hq hl
    rw [(hq.of_find? hl).2]
    exact .pure _

/-- Steps that follow in a round can be got over, and nothing reported is lost. -/
theorem may_inOrder_solitary {steps : List RoundStep}
    (hsteps : ∀ step ∈ steps, step ∈ roundSteps s l ⟨none, [], []⟩ none) (report : MutationReport)
    (hq : Solitary s l q) : (inOrder steps report q).May
      (Edited.Satisfies (fun after q => Lasting report after ∧ Solitary s l q) fun _ _ => False) := by
  have hmeets : ∀ step ∈ steps, step.Meets (fun _ => True)
      (fun after q => Lasting report after ∧ Solitary s l q) fun _ _ => False :=
    fun step hstep => meets_roundSteps_solitary report step (hsteps step hstep)
  have hends : ∀ step ∈ steps, step.CanEnd fun after q => Lasting report after ∧ Solitary s l q :=
    fun step hstep => (canEnd_roundSteps_solitary step (hsteps step hstep)).mono fun _ _ h => h.2
  exact (RoundStep.CanEnd.inOrder hmeets hends report q ⟨.refl _, hq⟩).may
    (RoundStep.Meets.inOrder hmeets report q ⟨.refl _, hq⟩).ensures

/-- After an edit that is not refused. -/
theorem may_bind_done {α β : Type} {x : Draw (Edited α)} {f : Edited α → Draw β}
    {J : α → Population → Prop} {P : β → Prop}
    (hx : x.May (Edited.Satisfies J fun _ _ => False)) (hf : ∀ a q, J a q → (f (.done a q)).May P) :
    (x >>= f).May P := by
  refine hx.bind fun e he => ?_
  cases e with
  | refused e q => exact he.elim
  | done a q => exact hf a q he

/-- What a step can report is still reported after those that follow it. -/
theorem may_inOrder_cons {step : RoundStep} {rest : List RoundStep} {report : MutationReport}
    {T : MutationReport → Prop} (hrest : ∀ step ∈ rest, step ∈ roundSteps s l ⟨none, [], []⟩ none)
    (hT : ∀ before after, Lasting before after → T before → T after)
    (hstep : (step report q).May
      (Edited.Satisfies (fun report q => T report ∧ Solitary s l q) fun _ _ => False)) :
    (inOrder (step :: rest) report q).May
      (Edited.Satisfies (fun report _ => T report) fun _ _ => False) := by
  refine may_bind_done hstep fun report q ⟨hreport, hq⟩ => ?_
  refine (may_inOrder_solitary hrest report hq).mono fun e he => ?_
  cases e with
  | refused e q => exact he
  | done after q => exact hT report after he.1 hreport

/-- A round can report what one of its steps can, whatever the steps before have changed. -/
theorem may_round {first rest : List RoundStep} {step : RoundStep} {T : MutationReport → Prop}
    (hround : roundSteps s l ⟨none, [], []⟩ none = first ++ step :: rest)
    (hT : ∀ before after, Lasting before after → T before → T after)
    (hstep : ∀ report q, Solitary s l q → (step report q).May
      (Edited.Satisfies (fun report q => T report ∧ Solitary s l q) fun _ _ => False))
    (report : MutationReport) (hq : Solitary s l q) :
    (inOrder (roundSteps s l ⟨none, [], []⟩ none) report q).May
      (Edited.Satisfies (fun report _ => T report) fun _ _ => False) := by
  have hfirst : ∀ step ∈ first, step ∈ roundSteps s l ⟨none, [], []⟩ none :=
    fun step hstep => by simp [hround, hstep]
  have hrest : ∀ step ∈ rest, step ∈ roundSteps s l ⟨none, [], []⟩ none :=
    fun step hstep => by simp [hround, hstep]
  rw [hround, inOrder_append]
  exact may_bind_done (may_inOrder_solitary hfirst report hq) fun report q h =>
    may_inOrder_cons hrest hT (hstep report q h.2)

theorem may_onCoin {probability : Float} (hshow : CanShow probability true) {step : RoundStep}
    {report : MutationReport} {P : Edited MutationReport → Prop} (h : (step report q).May P) :
    (onCoin probability step report q).May P := by
  have hcoin : (coin probability).May (· = true) := (spans_coin probability).may hshow rfl
  refine hcoin.bind fun shown hshown => ?_
  rw [if_pos hshown]
  exact h

variable {report : MutationReport}

/-- The mode can be toggled. -/
theorem may_report_mode (hq : Solitary s l q) (hvector : s.addressing.vectorMode = true)
    (hshow : CanShow s.mutation.program.toFloat true) :
    (inOrder (roundSteps s l ⟨none, [], []⟩ none) report q).May
      (Edited.Satisfies (fun report _ => report.modeToggled = true) fun _ _ => False) := by
  have hround : roundSteps s l ⟨none, [], []⟩ none =
      [onCoin s.mutation.program.toFloat (mutateProgram l none)] ++
        onCoin s.mutation.program.toFloat (toggleMode l) ::
          onCoin s.mutation.action.toFloat (changeAction l ⟨none, [], []⟩) :: placeSteps s l := by
    rw [roundSteps_eq, programSteps, if_pos hvector]
    rfl
  refine may_round hround (fun _ _ h => h.mode) (fun report q hq => may_onCoin hshow ?_) report hq
  obtain ⟨learner, hl, -⟩ := hq.learner
  rw [toggleMode, hl]
  exact .pure ⟨rfl, hq.modifyLearner fun _ _ hcode hfull => ⟨hcode, hfull⟩⟩

/-- There is another group to change to, if there are two. -/
theorem may_report_group (hq : Solitary s l q)
    (hgroups : 1 < UInt32.ofNat s.registers.sharedGroups)
    (hshow : CanShow s.mutation.action.toFloat true) :
    (inOrder (roundSteps s l ⟨none, [], []⟩ none) report q).May
      (Edited.Satisfies (fun report _ => report.groupChanged = true) fun _ _ => False) := by
  have hround : roundSteps s l ⟨none, [], []⟩ none =
      (programSteps s l none ++ [onCoin s.mutation.action.toFloat (changeAction l ⟨none, [], []⟩)]) ++
        onCoin s.mutation.action.toFloat (changeGroup l) ::
          [onCoin s.mutation.action.toFloat (moveAddressing l)] := by
    rw [roundSteps_eq, List.append_assoc]
    rfl
  refine may_round hround (fun _ _ h => h.group) (fun report q hq => may_onCoin hshow ?_) report hq
  obtain ⟨learner, hl, -⟩ := hq.learner
  obtain ⟨v, hv⟩ : ∃ v, v < UInt32.ofNat s.registers.sharedGroups ∧ v ≠ UInt32.ofNat learner.group := by
    by_cases hzero : UInt32.ofNat learner.group = 0
    · exact ⟨1, hgroups, by rw [hzero]; decide⟩
    · exact ⟨0, UInt32.lt_trans (by decide) hgroups, fun h => hzero h.symm⟩
  have hother : (resampleDifferent (.ofNat s.registers.sharedGroups) (.ofNat learner.group)).May
      fun o => ∃ v, o = some v :=
    (spans_resampleDifferent _ _).may (a := some v) hv ⟨v, rfl⟩
  rw [changeGroup, hl, hq.settings]
  refine hother.bind fun o ho => ?_
  obtain ⟨group, rfl⟩ := ho
  exact .pure ⟨rfl, hq.modifyLearner fun _ _ hcode hfull => ⟨hcode, hfull⟩⟩

/-- A program on which all operators find a place can be changed if one can fire. -/
theorem may_report_program {learner : Learner} (hq : Solitary s l q)
    (hl : q.learners.find? l = some learner)
    (hcode : Program.Editable q.ranges learner.program.code)
    (hattempts : s.mutation.maxChangeAttempts ≠ 0)
    (hfire : (InstructionRates.ofSettings s.mutation).Fire)
    (hshow : CanShow s.mutation.program.toFloat true) :
    (inOrder (roundSteps s l ⟨none, [], []⟩ none) report q).May
      (Edited.Satisfies (fun report _ => ∃ o ∈ report.program, o.changed = true)
        fun _ _ => False) := by
  have hmutate : (learner.program.mutate s.mutation q.ranges none).May fun o =>
      o.1.changed = true ∧ Program.Outcome s.mutation none learner.program o :=
    (Program.may_mutate hcode hfire hattempts).and_ensures
      (Program.meets_mutate (E := fun _ => True) trivial (fun _ => trivial) _ _ _).ensures
  refine may_inOrder_cons (fun _ => List.mem_cons_of_mem _) (fun _ _ h => h.program)
    (may_onCoin hshow ?_)
  simp only [mutateProgram, hl, hq.settings]
  refine hmutate.bind fun o ho => .pure ⟨?_, hq.modifyLearner fun _ _ _ hfull => ⟨?_, hfull⟩⟩
  · rw [if_pos ho.1]
    exact ⟨o.1, rfl, ho.1⟩
  · exact mt ho.2.nil hcode.ne_nil

/-- What a round can report, and is a change, a mutation can report. -/
theorem may_mutateLearner {T : MutationReport → Prop}
    (hT : ∀ report, T report → report.changed = true)
    (hattempts : p.settings.mutation.maxChangeAttempts ≠ 0)
    (hround : (inOrder (roundSteps p.settings l ⟨none, [], []⟩ none) { rounds := 1 } p).May
      (Edited.Satisfies (fun report _ => T report) fun _ _ => False)) :
    (p.mutateLearner l ⟨none, [], []⟩).May
      (Edited.Satisfies (fun report _ => T report) fun _ _ => False) := by
  obtain ⟨rounds, hrounds⟩ := Nat.exists_eq_succ_of_ne_zero hattempts
  simp only [mutateLearner, List.isEmpty_nil, if_true]
  rw [hrounds, mutationRounds]
  refine may_bind_done hround fun report q hreport => ?_
  dsimp only
  rw [if_pos (hT report hreport)]
  exact .pure hreport

end solitary

/-- A learner of two instructions, alone in a new population. -/
def hermitage (m : MutationSettings) (vectorMode : Bool) : Population :=
  ((⟨{ mutation := m, addressing := { vectorMode } }, .ofSettings {}, .fresh, .empty, .empty⟩ :
    Population).addLearnerWith ⟨⟨0⟩, [⟨0, 0, 0, 0, 0, 0⟩, ⟨1, 0, 0, 0, 0, 0⟩]⟩ (.atomic (.label 0))
      .full 0).population

theorem solitary_hermitage (m : MutationSettings) (vectorMode : Bool) :
    Solitary (hermitage m vectorMode).settings ⟨0⟩ (hermitage m vectorMode) :=
  ⟨rfl, rfl, _, rfl, List.cons_ne_nil _ _, rfl⟩

theorem editable_hermitage : Program.Editable (.ofSettings {})
    [⟨0, 0, 0, 0, 0, 0⟩, ⟨1, 0, 0, 0, 0, 0⟩] :=
  ⟨by decide, by decide, _, 0, 1, _, _, rfl, rfl, by decide, rfl⟩

end Population

namespace MutationSettings

open Population

variable {m : MutationSettings} {vectorMode : Bool}

/-- Reports that a round of the learner alone can come to. -/
theorem InRange.canReport_of_may {T : MutationReport → Prop} (h : m.InRange)
    (hT : ∀ report, T report → report.changed = true)
    (hround : (inOrder (roundSteps (hermitage m vectorMode).settings ⟨0⟩ ⟨none, [], []⟩ none)
      { rounds := 1 } (hermitage m vectorMode)).May
        (Edited.Satisfies (fun report _ => T report) fun _ _ => False)) :
    m.CanReport vectorMode T := by
  obtain ⟨source, e, source', hrun, he⟩ := (may_mutateLearner hT h.attempts hround).exists_ok
  cases e with
  | refused e q => exact he.elim
  | done report q => exact ⟨_, _, _, source, source', report, q, rfl, rfl, hrun, he⟩

theorem CanReport.mono {P Q : MutationReport → Prop} (h : m.CanReport vectorMode P)
    (hPQ : ∀ report, P report → Q report) : m.CanReport vectorMode Q := by
  obtain ⟨p, l, scope, s, s', report, q, hm, hvector, hrun, hreport⟩ := h
  exact ⟨p, l, scope, s, s', report, q, hm, hvector, hrun, hPQ report hreport⟩

section coins

variable (h : m.InRange)
include h

theorem InRange.canShow_program_iff : CanShow m.program.toFloat true ↔ 0.0 < m.program.toFloat :=
  canShow_true_iff (h.rates .program)

theorem InRange.canShow_action_iff : CanShow m.action.toFloat true ↔ 0.0 < m.action.toFloat :=
  canShow_true_iff (h.rates .action)

theorem InRange.fire_iff : (InstructionRates.ofSettings m).Fire ↔ m.instructionsFixed = false := by
  rw [← Bool.not_eq_true, h.instructionsFixed_iff, not_not]

/-- A changed program can be reported if the coin can show and an operator can fire. -/
theorem InRange.canReport_program (hpositive : 0.0 < m.program.toFloat)
    (hfree : m.instructionsFixed = false) (vectorMode : Bool) :
    m.CanReport vectorMode fun report => ∃ o ∈ report.program, o.changed = true :=
  h.canReport_of_may (fun _ hreport => MutationReport.changed_iff.2 (.inl hreport))
    (may_report_program (solitary_hermitage m vectorMode) rfl editable_hermitage h.attempts
      (h.fire_iff.2 hfree) (h.canShow_program_iff.2 hpositive))

/-- A change of the program can be reported exactly if its coin can show and an operator can fire. -/
theorem InRange.canReport_program_iff (vectorMode : Bool) :
    m.CanReport vectorMode (·.program ≠ none) ↔
      0.0 < m.program.toFloat ∧ m.instructionsFixed = false := by
  constructor
  · rintro ⟨p, l, scope, s, s', report, q, rfl, -, hrun, hreport⟩
    obtain ⟨hshow, hfire⟩ := (opened_mutateLearner hrun).program hreport
    exact ⟨h.canShow_program_iff.1 hshow, h.fire_iff.1 hfire⟩
  · rintro ⟨hpositive, hfree⟩
    refine (h.canReport_program hpositive hfree vectorMode).mono ?_
    rintro report ⟨o, ho, -⟩ hnone
    cases ho.symm.trans hnone

/-- A change can be reported exactly if a coin can open a step that has something to change. -/
theorem InRange.canReport_changed_iff (vectorMode : Bool) :
    m.CanReport vectorMode (·.changed = true) ↔ 0.0 < m.action.toFloat ∨
      0.0 < m.program.toFloat ∧ (m.instructionsFixed = false ∨ vectorMode = true) := by
  constructor
  · rintro ⟨p, l, scope, s, s', report, q, rfl, rfl, hrun, hreport⟩
    have hopened := opened_mutateLearner hrun
    rw [← h.canShow_action_iff, ← h.canShow_program_iff, ← h.fire_iff]
    obtain ⟨o, ho, -⟩ | hmode | haction | hgroup | haddressing := MutationReport.changed_iff.1 hreport
    · obtain ⟨hshow, hfire⟩ := hopened.program fun hnone => by cases ho.symm.trans hnone
      exact .inr ⟨hshow, .inl hfire⟩
    · obtain ⟨hshow, hvector⟩ := hopened.mode hmode
      exact .inr ⟨hshow, .inr hvector⟩
    · exact .inl (hopened.action haction)
    · exact .inl (hopened.group hgroup)
    · exact .inl (hopened.addressing haddressing)
  · rintro (hpositive | ⟨hpositive, hfree | rfl⟩)
    · have hgroups : (1 : UInt32) < .ofNat 8 := by decide
      have hchanged : ∀ report : MutationReport, report.groupChanged = true → report.changed = true :=
        fun _ hreport => MutationReport.changed_iff.2 (.inr (.inr (.inr (.inl hreport))))
      exact (h.canReport_of_may hchanged (may_report_group (solitary_hermitage m vectorMode) hgroups
        (h.canShow_action_iff.2 hpositive))).mono hchanged
    · exact (h.canReport_program hpositive hfree vectorMode).mono fun _ hreport =>
        MutationReport.changed_iff.2 (.inl hreport)
    · have hchanged : ∀ report : MutationReport, report.modeToggled = true → report.changed = true :=
        fun _ hreport => MutationReport.changed_iff.2 (.inr (.inl hreport))
      exact (h.canReport_of_may hchanged (may_report_mode (solitary_hermitage m true) rfl
        (h.canShow_program_iff.2 hpositive))).mono hchanged

/-- Nothing can change exactly if both coins never show true. -/
theorem InRange.inert_iff : m.Inert ↔ ¬ 0.0 < m.program.toFloat ∧ ¬ 0.0 < m.action.toFloat := by
  simp only [Inert, h.canReport_changed_iff]
  constructor
  · intro hinert
    have hnone := hinert true
    exact ⟨fun hpositive => hnone (.inr ⟨hpositive, .inr rfl⟩), fun hpositive => hnone (.inl hpositive)⟩
  · rintro ⟨hprogram, haction⟩ _ (hpositive | ⟨hpositive, -⟩)
    · exact haction hpositive
    · exact hprogram hpositive

end coins

/-- The check names settings in range as those at which no mutation is possible exactly if none can
report a change, but for the settings whose program coin can show although no operator can fire: these
it refuses, and of them only changes of the program cannot be reported, while in vector mode, or with
the coin of the action, others can. -/
theorem refused_iff_inert (h : m.InRange) :
    ((m.check = .error .noMutationPossible ↔ m.Inert) ↔
      ¬ (0.0 < m.program.toFloat ∧ m.instructionsFixed = true)) ∧
    (m.check = .error .noMutationPossible ↔ m.Inert ∨
      0.0 < m.program.toFloat ∧ ∀ vectorMode, ¬ m.CanReport vectorMode (·.program ≠ none)) ∧
    ∀ vectorMode,
      (m.CanReport vectorMode (·.changed = true) ↔ 0.0 < m.action.toFloat ∨
        0.0 < m.program.toFloat ∧ (m.instructionsFixed = false ∨ vectorMode = true)) ∧
      (m.CanReport vectorMode (·.program ≠ none) ↔
        0.0 < m.program.toFloat ∧ m.instructionsFixed = false) := by
  refine ⟨?_, ?_, fun vectorMode =>
    ⟨h.canReport_changed_iff vectorMode, h.canReport_program_iff vectorMode⟩⟩
  · rw [h.refused_iff, h.inert_iff]
    tauto
  · rw [h.refused_iff, h.inert_iff]
    simp only [h.canReport_program_iff]
    cases m.instructionsFixed <;> simp

/-- The default rates, but neither coin ever shows true. -/
def still : MutationSettings := { program := 0.0, action := 0.0 }

/-- The default rates, but the coin of the program never shows true. -/
def fixedPrograms : MutationSettings := { program := 0.0 }

theorem still_inert :
    (InRange {} ∧ ¬ Inert {} ∧ ∀ vectorMode,
      CanReport {} vectorMode (·.changed = true) ∧ CanReport {} vectorMode (·.program ≠ none)) ∧
    (still.InRange ∧ still.check = .error .noMutationPossible ∧ still.Inert) ∧
    (fixedPrograms.InRange ∧ fixedPrograms.check = .ok () ∧ ¬ fixedPrograms.Inert ∧ ∀ vectorMode,
      fixedPrograms.CanReport vectorMode (·.changed = true) ∧
        ¬ fixedPrograms.CanReport vectorMode (·.program ≠ none)) := by
  have hdefault : InRange {} := ⟨fun r => by cases r <;> decide, by decide, by decide, by decide⟩
  have hstill : still.InRange := ⟨fun r => by cases r <;> decide, by decide, by decide, by decide⟩
  have hfixed : fixedPrograms.InRange :=
    ⟨fun r => by cases r <;> decide, by decide, by decide, by decide⟩
  refine ⟨⟨hdefault, ?_⟩, ⟨hstill, ?_⟩, hfixed, ?_⟩
  · obtain ⟨hexact, -, hreports⟩ := refused_iff_inert hdefault
    have hfree : ({} : MutationSettings).instructionsFixed = false := by decide
    have hpositive : 0.0 < ({} : MutationSettings).program.toFloat := by decide
    have haccepted : ({} : MutationSettings).check ≠ .error .noMutationPossible := by decide +kernel
    refine ⟨fun hinert => haccepted ((hexact.2 ?_).2 hinert), fun vectorMode => ?_⟩
    · rintro ⟨-, hfixed⟩
      cases hfree.symm.trans hfixed
    · obtain ⟨hchanged, hprogram⟩ := hreports vectorMode
      exact ⟨hchanged.2 (.inr ⟨hpositive, .inl hfree⟩), hprogram.2 ⟨hpositive, hfree⟩⟩
  · have hzero : ¬ 0.0 < still.program.toFloat := by decide
    have hrefused : still.check = .error .noMutationPossible := by decide +kernel
    exact ⟨hrefused, ((refused_iff_inert hstill).1.2 fun hcoin => hzero hcoin.1).1 hrefused⟩
  · obtain ⟨hexact, -, hreports⟩ := refused_iff_inert hfixed
    have hzero : ¬ 0.0 < fixedPrograms.program.toFloat := by decide
    have hpositive : 0.0 < fixedPrograms.action.toFloat := by decide
    have haccepted : fixedPrograms.check = .ok () := by decide +kernel
    refine ⟨haccepted, fun hinert => ?_, fun vectorMode => ?_⟩
    · cases haccepted.symm.trans ((hexact.2 fun hcoin => hzero hcoin.1).2 hinert)
    · obtain ⟨hchanged, hprogram⟩ := hreports vectorMode
      exact ⟨hchanged.2 (.inl hpositive), fun hreport => hzero (hprogram.1 hreport).1⟩

/-- The default rates, but no operator on instructions can fire. -/
def fixedInstructions : MutationSettings :=
  { deleteInstruction := 0.0, addInstruction := 0.0, swapInstruction := 0.0, mutateInstruction := 0.0 }

/-- The settings are refused, and yet the share group can change. -/
theorem fixedInstructions_refused : fixedInstructions.InRange ∧
    ¬ (fixedInstructions.check = .error .noMutationPossible ↔ fixedInstructions.Inert) := by
  have hrange : fixedInstructions.InRange :=
    ⟨fun r => by cases r <;> decide, by decide, by decide, by decide⟩
  have hrefused : fixedInstructions.check = .error .noMutationPossible := by decide +kernel
  have hrun : ∃ q s', (hermitage fixedInstructions false).mutateLearner ⟨0⟩ ⟨none, [], []⟩
      (.ofWords [0xffffffffffffffff, 0xffffffffffffffff, 0, 0, 0xffffffffffffffff]) =
        .ok (.done { groupChanged := true, rounds := 1 } q, s') := ⟨_, _, rfl⟩
  obtain ⟨q, s', hrun⟩ := hrun
  exact ⟨hrange, fun hexact => hexact.1 hrefused false ⟨_, _, _, _, s', _, q, rfl, rfl, hrun, rfl⟩⟩

end MutationSettings

end TangledPrograms
