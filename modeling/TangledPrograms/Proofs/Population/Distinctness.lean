import TangledPrograms.Proofs.Addressing
import TangledPrograms.Proofs.Machine.Isolation
import TangledPrograms.Proofs.Population.Forgetting
import TangledPrograms.Proofs.Population.Laws
import TangledPrograms.Proofs.Program.Mutation

/-!
# Distinct programs bid apart

A program is compared with a corpus that is made before the first round, in group zero and with the
configured number of registers. The learner's bids are what was compared as long as mode and addressing
are those from before: the group does not matter on a bank of zeros, all learners have the configured
number of registers, and no later step of a round touches the program.
-/

namespace TangledPrograms

open Draw

namespace Population

section registers

private abbrev allotment (s : Settings) : NodeLaw :=
  ⟨fun _ _ => True, fun _ learner => learner.registers = s.registers.count⟩

private theorem lasting_allotment (s : Settings) (r : InstructionRanges) :
    (allotment s).Lasting (fun _ => True) s r where
  toStable := NodeLaw.stable_of_learners (fun _ _ _ _ h => h) (fun _ _ h => meets_of_forall fun _ => h)
    (fun _ h => h) (fun _ _ h => h) (fun _ h => meets_of_forall fun _ => h)
  newTeam _ := trivial
  newLearner _ := meets_of_forall fun _ => meets_of_forall fun _ _ _ _ _ _ _ => rfl
  offspring _ _ _ _ h := h

/-- The settings of a new population stay, and all learners have the registers that these ask for. -/
theorem Run.registers {s : Settings} {p₀ p : Population} {admits : Command → Prop}
    (h₀ : Population.new s = .ok p₀) (h : Run admits p₀ p) : p.settings = s ∧
      ∀ l learner, p.learners.find? l = some learner → learner.registers = s.registers.count := by
  have hadmits : ∀ c, admits c → (allotment s).Admits s c := by
    intro c _
    cases c with
    | addLearnerWith => exact fun _ => rfl
    | _ => trivial
  have hrun := (h.mono hadmits).upholds (lasting_allotment s _) trivial (upholds_new h₀)
  exact ⟨hrun.settings, hrun.learner⟩

end registers

section corpus

variable {p : Population} {l : LearnerId} {references : List LearnerId} {c : UniquenessCorpus}

theorem learner_eq_ok {learner : Learner} (h : p.learner l = .ok learner) :
    p.learners.find? l = some learner := by
  simp only [Population.learner] at h
  split at h
  · cases h
    assumption
  · cases h

/-- A corpus is made for a live learner, and holds what every reference remembers. -/
theorem uniquenessCorpus_eq_ok (h : p.uniquenessCorpus l references = .ok c) :
    ∃ target, p.learners.find? l = some target ∧ c.mode = target.mode ∧
      c.registers = p.settings.registers ∧ ∀ r ∈ references, ∃ reference,
        p.learners.find? r = some reference ∧ ∀ o ∈ reference.memory,
          (target.addressing.view o, (reference.bid o p.referenceBank).1) ∈ c.entries := by
  obtain ⟨target, htarget, h⟩ := ok_of_bind h
  obtain ⟨entries, hentries, h⟩ := ok_of_bind h
  cases h
  refine ⟨target, learner_eq_ok htarget, rfl, rfl, fun r hr => ?_⟩
  obtain ⟨block, hblock, hmade⟩ := ok_of_mapM hentries r hr
  obtain ⟨reference, hreference, hmade⟩ := ok_of_bind hmade
  cases hmade
  refine ⟨reference, learner_eq_ok hreference, fun o ho => ?_⟩
  exact List.mem_flatten.2 ⟨_, hblock, List.mem_map_of_mem ho⟩

end corpus

/-- Where the rounds of a mutation stand with a learner that was `target` before: what its bids depend
on is as it was unless reported, and a program reported as distinct is. -/
structure Compared (target : Learner) (c : UniquenessCorpus) (m : MutationSettings)
    (report : MutationReport) (learner : Learner) : Prop where
  registers : learner.registers = target.registers
  mode : report.modeToggled = false → learner.mode = target.mode
  addressing : report.addressingMoved = false → learner.addressing = target.addressing
  distinct : ∀ k, report.program = some (.distinct k) →
    c.distinguishes learner.program m.uniqueThreshold.toFloat = true

section rounds

variable {s : Settings} {l : LearnerId} {target : Learner} {c : UniquenessCorpus}

def Comparing (s : Settings) (l : LearnerId) (target : Learner) (c : UniquenessCorpus)
    (report : MutationReport) (p : Population) : Prop :=
  p.settings = s ∧ ∃ learner, p.learners.find? l = some learner ∧
    Compared target c s.mutation report learner

theorem Comparing.modifyLearner {report report' : MutationReport} {p : Population} {learner : Learner}
    {f : Learner → Learner} (h : Comparing s l target c report p)
    (hl : p.learners.find? l = some learner)
    (hf : Compared target c s.mutation report learner →
      Compared target c s.mutation report' (f learner)) :
    Comparing s l target c report' (p.modifyLearner l f) := by
  obtain ⟨hsettings, learner', hl', hcompared⟩ := h
  obtain rfl := Option.some.inj (hl.symm.trans hl')
  refine ⟨hsettings, f learner, ?_, hf hcompared⟩
  rw [find?_modifyLearner, hl, Option.map_some, if_pos rfl]

theorem Comparing.report {report report' : MutationReport} {p : Population}
    (h : Comparing s l target c report p) (hprogram : report'.program = report.program)
    (hmode : report'.modeToggled = report.modeToggled)
    (haddressing : report'.addressingMoved = report.addressingMoved) :
    Comparing s l target c report' p := by
  obtain ⟨hsettings, learner, hl, hlearner⟩ := h
  refine ⟨hsettings, learner, hl, hlearner.registers, ?_, ?_, ?_⟩
  · rw [hmode]
    exact hlearner.mode
  · rw [haddressing]
    exact hlearner.addressing
  · rw [hprogram]
    exact hlearner.distinct

/-- Every step keeps the comparison. -/
theorem comparing_roundSteps (scope : MutationScope) : ∀ step ∈ roundSteps s l scope (some c),
    step.Meets (fun _ => True) (Comparing s l target c) fun _ _ => True := by
  refine forall_mem_roundSteps (fun hstep => RoundStep.Meets.onCoin trivial hstep)
    (RoundStep.Leads.mutateProgram (fun _ _ _ _ => trivial) ?_)
    (fun _ => RoundStep.Leads.toggleMode (fun _ _ _ _ => trivial) ?_)
    (RoundStep.Meets.changeAction (fun _ _ _ _ => trivial) trivial ?_
      (fun _ _ _ _ _ _ _ _ => trivial) ?_)
    (RoundStep.Meets.changeGroup (fun _ _ _ _ => trivial) trivial ?_)
    (RoundStep.Leads.moveAddressing (fun _ _ _ _ => trivial) ?_)
  · intro report p learner h hl
    obtain rfl := h.1
    have hmutate := Program.meets_mutate (p := learner.program) (E := fun _ => True) trivial
      (fun _ => trivial) p.settings.mutation p.ranges (some c)
    refine hmutate.mono fun o ho => h.modifyLearner hl fun hlearner => ?_
    split
    · refine ⟨hlearner.registers, hlearner.mode, hlearner.addressing, fun k hk => ?_⟩
      obtain ⟨_, hc, hdistinct⟩ := ho.distinct k (Option.some.inj hk)
      rwa [← Option.mem_some_iff.1 hc] at hdistinct
    · rename_i hchanged
      have hsame := ho.same (Bool.eq_false_iff.2 hchanged)
      refine ⟨hlearner.registers, hlearner.mode, hlearner.addressing, fun k hk => ?_⟩
      rw [hsame]
      exact hlearner.distinct k hk
  · intro report p learner h hl
    exact h.modifyLearner hl fun hlearner =>
      ⟨hlearner.registers, nofun, hlearner.addressing, hlearner.distinct⟩
  · exact fun report p changed h => h.report rfl rfl rfl
  · intro report p action q h hrewire
    obtain ⟨learner, hl, -, -, rfl⟩ := exists_of_rewire_done hrewire
    have hmoved : Comparing s l target c report
        ((p.releaseTarget learner.action).retainTarget action) := by
      simpa only [Comparing, settings_retainTarget, settings_releaseTarget, learners_retainTarget,
        learners_releaseTarget] using h
    have hlive : ((p.releaseTarget learner.action).retainTarget action).learners.find? l =
        some learner := by simpa using hl
    refine hmoved.modifyLearner hlive fun hlearner => ?_
    exact ⟨hlearner.registers, hlearner.mode, hlearner.addressing, hlearner.distinct⟩
  · intro report p learner group h hl _
    exact h.modifyLearner hl fun hlearner =>
      ⟨hlearner.registers, hlearner.mode, hlearner.addressing, hlearner.distinct⟩
  · intro report p learner h hl
    have hperturb := learner.addressing.meets_perturb (E := fun _ => True) trivial trivial
      fun _ => trivial
    refine hperturb.mono fun o ho => h.modifyLearner hl fun hlearner => ?_
    refine ⟨hlearner.registers, hlearner.mode, fun hmoved => ?_, hlearner.distinct⟩
    obtain ⟨hbefore, hnow⟩ := Bool.or_eq_false_iff.1 hmoved
    exact (ho.1 hnow).trans (hlearner.addressing hbefore)

end rounds

/-- A learner whose program came out distinct, and which sees observations as before, bids apart from
every reference on all that this one remembers. -/
theorem distinct_bids_apart {s : Settings} {p₀ p p' : Population} {l : LearnerId}
    {scope : MutationScope} {report : MutationReport} {source source' : Source} {attempts : ℕ}
    (h₀ : Population.new s = .ok p₀) (h : Run (fun _ => True) p₀ p) (hscope : scope.references ≠ [])
    (hmutate : p.mutateLearner l scope source = .ok (.done report p', source'))
    (hdistinct : report.program = some (.distinct attempts)) (hmode : report.modeToggled = false)
    (haddressing : report.addressingMoved = false) :
    ∃ after, p'.learners.find? l = some after ∧ ∀ r ∈ scope.references, ∃ reference,
      p.learners.find? r = some reference ∧ ∀ o ∈ reference.memory,
        let zeros : Machine.Bank := .zeros s.registers.sharedGroups s.registers.sharedSlots
        ((reference.bid o zeros).1 - (after.bid o zeros).1).abs ≥
          s.mutation.uniqueThreshold.toFloat := by
  obtain ⟨rfl, hregisters⟩ := h.registers h₀
  simp only [mutateLearner, if_neg (mt List.isEmpty_iff.1 hscope)] at hmutate
  cases hcorpus : p.uniquenessCorpus l scope.references with
  | error e =>
    rw [hcorpus] at hmutate
    cases hmutate
  | ok c =>
    rw [hcorpus] at hmutate
    obtain ⟨target, htarget, hcmode, hcregisters, hentries⟩ := uniquenessCorpus_eq_ok hcorpus
    have hstart : Comparing p.settings l target c {} p :=
      ⟨rfl, target, htarget, rfl, fun _ => rfl, fun _ => rfl, fun _ hk => by cases hk⟩
    have hsteps : ∀ step ∈ roundSteps p.settings l scope (some c),
        step.Meets (fun _ => True) (Comparing p.settings l target c) fun _ _ => True :=
      comparing_roundSteps scope
    have hrounds := RoundStep.Meets.mutationRounds (fun _ _ h => h.1)
      (fun _ _ _ h => h.report rfl rfl rfl) hsteps p.settings.mutation.maxChangeAttempts {} p hstart
    obtain ⟨-, after, hafter, hcompared⟩ := hrounds.ensures _ _ _ hmutate
    refine ⟨after, hafter, fun r hr => ?_⟩
    obtain ⟨reference, hreference, hmemory⟩ := hentries r hr
    refine ⟨reference, hreference, fun o ho => ?_⟩
    intro zeros
    have hapart := List.all_eq_true.1 (hcompared.distinct attempts hdistinct) _ (hmemory o ho)
    have houtput : c.output after.program (target.addressing.view o) = (after.bid o zeros).1 := by
      rw [← after.bid_zeros 0, Learner.bid, hcompared.mode hmode, hcompared.addressing haddressing,
        hcompared.registers, hregisters l target htarget, UniquenessCorpus.output,
        UniquenessCorpus.bank, hcmode, hcregisters]
    rw [houtput] at hapart
    exact of_decide_eq_true hapart

def echo : Population :=
  listening
    { program := 1.0, action := 0.0, deleteInstruction := 0.0, addInstruction := 0.0
      swapInstruction := 0.0, mutateInstruction := 1.0, uniqueThreshold := 0.5 }

/-- It comes to bid at least 0.5 apart from what it bid before. -/
theorem echo_bids_apart :
    ∃ p₀ p' source', Population.new echo.settings = .ok p₀ ∧ Run (fun _ => True) p₀ echo ∧
      echo.mutateLearner ⟨0⟩ ⟨none, [], [⟨0⟩]⟩ ⟨fun _ => 0, 0, 20⟩ =
        .ok (.done { program := some (.distinct 1), rounds := 1 } p', source') ∧
      ∃ after reference, p'.learners.find? ⟨0⟩ = some after ∧
        echo.learners.find? ⟨0⟩ = some reference ∧ oneNumber ∈ reference.memory ∧
        ((reference.bid oneNumber (.zeros 8 8)).1 -
          (after.bid oneNumber (.zeros 8 8)).1).abs ≥ 0.5 := by
  obtain ⟨p₀, h₀, hrun⟩ : ∃ p₀, Population.new echo.settings = .ok p₀ ∧ Run (fun _ => True) p₀ echo :=
    exists_run_listening (by decide +kernel) trivial trivial trivial trivial
  obtain ⟨p', source', hmutate⟩ : ∃ p' source',
      echo.mutateLearner ⟨0⟩ ⟨none, [], [⟨0⟩]⟩ ⟨fun _ => 0, 0, 20⟩ =
        .ok (.done { program := some (.distinct 1), rounds := 1 } p', source') := ⟨_, _, rfl⟩
  obtain ⟨after, hafter, hbids⟩ :=
    distinct_bids_apart h₀ hrun (List.cons_ne_nil _ _) hmutate rfl rfl rfl
  obtain ⟨reference, hreference, hapart⟩ := hbids ⟨0⟩ List.mem_cons_self
  have hmem : oneNumber ∈ reference.memory := by
    obtain rfl := Option.some.inj (hreference.symm.trans rfl)
    exact List.mem_cons_self
  refine ⟨p₀, p', source', h₀, hrun, hmutate, after, reference, hafter, hreference, hmem, ?_⟩
  exact hapart oneNumber hmem

end Population

end TangledPrograms
