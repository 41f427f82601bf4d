import TangledPrograms.Proofs.Population.Sampling
import TangledPrograms.Proofs.Snapshot.Numbering

/-!
# Programs of restored learners

A program that is built must have an instruction; one that is read from a snapshot need not, and a
restoration does not look. So a restored population may hold an empty program, and stops where a
mutation asks for one of its instructions.
-/

namespace TangledPrograms.Snapshot

open Population (NoEmptyProgram)

variable {F : TimeFormat} {s : Snapshot F} {p : Population} {agents : List AgentRecord}

theorem check_of_restore (h : s.restore = .ok (p, agents)) : s.settings.check = .ok () :=
  (restore_eq_ok_iff.1 h).2.1

theorem settings_of_restore (h : s.restore = .ok (p, agents)) : p.settings = s.settings := by
  obtain ⟨rfl, -, -⟩ := eq_of_restore h
  rfl

/-- If the learners of a snapshot all have instructions, then those of the restored population have
and keep them, and no mutation asks an empty range. A restored learner without instructions stops a
mutation, if the settings let programs and instructions change. -/
theorem restored_mutates (h : s.restore = .ok (p, agents))
    (hsteps : ∀ l ∈ s.learners, l.addressing.StepFits) :
    ((∀ l ∈ s.learners, l.program.code ≠ []) → p.NoEmptyProgram ∧ ∀ l scope,
      (p.mutateLearner l scope).Meets (· ≠ .emptyRange) fun e => e.population.NoEmptyProgram) ∧
    (0.0 < s.settings.mutation.program.toFloat → 0.0 < s.settings.mutation.mutateInstruction.toFloat →
      ∀ l learner, p.learners.find? l = some learner → learner.program.code = [] →
        ∃ scope source, p.mutateLearner l scope source = .error .emptyRange) := by
  constructor
  · intro hcode
    have hmutable : ∀ l learner, p.learners.find? l = some learner → learner.Mutable := by
      obtain ⟨rfl, -, -⟩ := eq_of_restore h
      intro l learner hl
      have hmem := (mem_learners_of_find? hl).1
      exact ⟨hcode learner hmem, hsteps learner hmem⟩
    constructor
    · exact fun l learner hl => (hmutable l learner hl).code
    · exact Population.mutateLearner_samples hmutable
  · intro hprogram hchange l learner hl hnil
    have hattempts := MutationSettings.maxChangeAttempts_ne_zero
      (Settings.check_mutation (check_of_restore h))
    rw [← settings_of_restore h] at hprogram hchange hattempts
    have hhalts := Population.mutateLearner_halts_of_nil hl hnil hprogram hchange hattempts none []
    exact ⟨_, _, hhalts _ (Source.shows_ofWords _)⟩

theorem network_mutates : ∃ p, network.restore = .ok (p, network.agents) ∧
    (∀ l ∈ network.learners, l.addressing.StepFits) ∧ p.NoEmptyProgram ∧
    ∀ l scope, (p.mutateLearner l scope).Meets (· ≠ .emptyRange) fun e =>
      e.population.NoEmptyProgram := by
  have hrestore : network.restore = .ok (network.assemble, network.agents) := restore_network
  have hsteps : ∀ l ∈ network.learners, l.addressing.StepFits := by
    simp [network, plainLearner, Addressing.StepFits]
  have hcode : ∀ l ∈ network.learners, l.program.code ≠ [] := by simp [network, plainLearner]
  exact ⟨_, hrestore, hsteps, (restored_mutates hrestore hsteps).1 hcode⟩

/-- The same pair, whose learner has no instruction. -/
def hollow : Snapshot :=
  { pair ⟨1, 1, 1⟩ with
    learners := (pair ⟨1, 1, 1⟩).learners.map fun l => { l with program.code := [] } }

/-- It is restored, and a mutation of its learner stops. -/
theorem hollow_halts : ∃ p, hollow.restore = .ok (p, []) ∧ ¬ p.NoEmptyProgram ∧
    ∃ scope source, p.mutateLearner ⟨0⟩ scope source = .error .emptyRange := by
  have hrestore : hollow.restore = .ok (hollow.assemble, []) := by decide +kernel
  obtain ⟨learner, hl, hnil⟩ : ∃ learner, hollow.assemble.learners.find? ⟨0⟩ = some learner ∧
      learner.program.code = [] := ⟨_, rfl, rfl⟩
  refine ⟨_, hrestore, fun h => h _ _ hl hnil, ⟨none, [], []⟩, .ofWords [0, 0], ?_⟩
  have hhalts := Population.mutateLearner_halts_of_nil hl hnil (by decide) (by decide) (by decide)
  exact hhalts none [] _ (Source.shows_ofWords _)

end TangledPrograms.Snapshot
