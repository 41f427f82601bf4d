import TangledPrograms.Proofs.Addressing
import TangledPrograms.Proofs.Population.Laws
import TangledPrograms.Proofs.Program.Mutation

/-!
# Values asked of empty ranges

A mutation changes one of a program's instructions and moves anchors by at most a step. It asks for
an instruction where there is none if the program is empty, and for shifts between bounds in the wrong
order if the step is negative as a signed word. Learners for which neither happens stay so when they
are mutated.
-/

namespace TangledPrograms

open Draw

/-- Nothing that the mutation of the learner draws comes from an empty range. -/
structure Learner.Mutable (l : Learner) : Prop where
  code : l.program.code ≠ []
  step : l.addressing.StepFits

namespace Population

/-- Every program has an instruction. -/
def NoEmptyProgram (p : Population) : Prop :=
  ∀ l learner, p.learners.find? l = some learner → learner.program.code ≠ []

abbrev sampling : NodeLaw := ⟨fun _ _ => True, fun _ learner => learner.Mutable⟩

theorem stable_sampling (s : Settings) (r : InstructionRanges) :
    sampling.Stable (· ≠ .emptyRange) s r := by
  apply NodeLaw.stable_of_learners
  · exact fun _ _ _ _ h => ⟨h.code, h.step⟩
  · intro learner corpus h
    have hmutate := Program.meets_mutate (E := (· ≠ .emptyRange)) (by decide)
      (fun hnil => absurd hnil h.code) s.mutation r corpus
    exact hmutate.mono fun _ ho => ⟨fun hnil => h.code (ho.nil hnil), h.step⟩
  · exact fun _ h => ⟨h.code, h.step⟩
  · exact fun _ _ h => ⟨h.code, h.step⟩
  · intro learner h
    have hperturb := learner.addressing.meets_perturb (E := (· ≠ .emptyRange)) (by decide)
      (by decide) fun hstep => absurd h.step hstep
    exact hperturb.mono fun _ ho => ⟨h.code, ho.2 h.step⟩

variable {p : Population}

theorem upholds_sampling_iff :
    p.Upholds sampling p.settings p.ranges ↔
      ∀ l learner, p.learners.find? l = some learner → learner.Mutable := by
  constructor
  · exact fun h => h.learner
  · exact fun h => ⟨rfl, rfl, fun _ _ _ => trivial, h⟩

/-- The mutation of a learner leaves an instruction in every program. -/
theorem mutateLearner_samples (h : ∀ l learner, p.learners.find? l = some learner → learner.Mutable)
    (l : LearnerId) (scope : MutationScope) :
    (p.mutateLearner l scope).Meets (· ≠ .emptyRange) fun e => e.population.NoEmptyProgram := by
  have hupholds := upholds_sampling_iff.2 h
  refine (hupholds.mutateLearner (stable_sampling _ _) (by decide) l scope).mono fun e he => ?_
  exact fun k learner hk => (he.learner k learner hk).code

section empty

variable {l : LearnerId} {learner : Learner} {m : MutationSettings}

theorem halts_mutate_of_nil {program : Program} (hcode : program.code = [])
    (hchange : 0.0 < m.mutateInstruction.toFloat) (hattempts : m.maxChangeAttempts ≠ 0)
    (r : InstructionRanges) : (program.mutate m r none).Halts [0] .emptyRange := by
  obtain ⟨attempts, hattempts⟩ := Nat.exists_eq_succ_of_ne_zero hattempts
  simp only [Program.mutate, hcode, hattempts]
  refine Halts.bind (Halts.bind ?_)
  refine (Answers.pure (⟨false, []⟩ : Change)).halts (Halts.bind ?_)
  exact (answers_coin_true hchange).halts fun _ _ => rfl

/-- An empty program stops the mutation of its learner as soon as the coins for a mutation and for a
change of an instruction show. -/
theorem mutateLearner_halts_of_nil (hl : p.learners.find? l = some learner)
    (hcode : learner.program.code = []) (hprogram : 0.0 < p.settings.mutation.program.toFloat)
    (hchange : 0.0 < p.settings.mutation.mutateInstruction.toFloat)
    (hattempts : p.settings.mutation.maxChangeAttempts ≠ 0) (parent : Option TeamId)
    (pool : List AtomicAction) :
    (p.mutateLearner l ⟨parent, pool, []⟩).Halts [0, 0] .emptyRange := by
  have hmutate := halts_mutate_of_nil hcode hchange hattempts p.ranges
  obtain ⟨attempts, hattempts⟩ := Nat.exists_eq_succ_of_ne_zero hattempts
  simp only [mutateLearner, hattempts]
  refine Halts.bind (Halts.bind ?_)
  refine (answers_coin_true hprogram).halts ?_
  simp only [mutateProgram, hl]
  exact hmutate.bind

end empty

end Population

end TangledPrograms
