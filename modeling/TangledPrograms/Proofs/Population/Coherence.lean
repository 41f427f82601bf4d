import TangledPrograms.Proofs.Addressing
import TangledPrograms.Proofs.Population.Laws

/-!
# What all commands leave alone

No command touches the settings and ranges of a population, and all windows of its learners stay
determined by their parameters, if those that are handed in are.
-/

namespace TangledPrograms

/-- An addressing strategy that is handed in is determined by its parameters. -/
def Command.Coherent : Command → Prop
  | .addLearnerWith _ _ addressing _ => addressing.Coherent
  | _ => True

/-- The population goes on with settings `s`, and so do its learners' strategies. -/
structure Population.Coherent (s : Settings) (p : Population) : Prop where
  settings : p.settings = s
  ranges : p.ranges = .ofSettings s.program
  addressing : ∀ l learner, p.learners.find? l = some learner → learner.addressing.Coherent

namespace Population

variable {s : Settings} {p₀ p : Population}

/-- Determined windows, as a law of single nodes. -/
private abbrev coherence : NodeLaw := ⟨fun _ _ => True, fun _ learner => learner.addressing.Coherent⟩

private theorem coherent_iff_upholds :
    Coherent s p ↔ p.Upholds coherence s (.ofSettings s.program) := by
  constructor
  · exact fun h => ⟨h.settings, h.ranges, fun _ _ _ => trivial, h.addressing⟩
  · exact fun h => ⟨h.settings, h.ranges, h.learner⟩

private theorem lasting_coherence (s : Settings) (r : InstructionRanges) :
    coherence.Lasting (fun _ => True) s r where
  toStable := NodeLaw.stable_of_learners (fun _ _ _ _ h => h)
    (fun _ _ h => Draw.meets_of_forall fun _ => h) (fun _ h => h) (fun _ _ h => h)
    (fun _ h => (Addressing.coherent_perturb h).meets)
  newTeam _ := trivial
  newLearner _ := Draw.meets_of_forall fun _ =>
    (Addressing.coherent_random s.addressing).meets.mono fun _ ha _ _ _ _ _ _ => ha
  offspring _ _ _ _ h := h

theorem Coherent.new (h : Population.new s = .ok p) : Coherent s p :=
  coherent_iff_upholds.2 (upholds_new h)

theorem Run.coherent (h : Run Command.Coherent p₀ p) (h₀ : Coherent s p₀) : Coherent s p := by
  have hadmits : ∀ c, Command.Coherent c → coherence.Admits s c := by
    intro c hc
    cases c with
    | addLearnerWith program action addressing group => exact fun _ => hc
    | _ => trivial
  refine coherent_iff_upholds.2 ?_
  exact (h.mono hadmits).upholds (lasting_coherence _ _) trivial (coherent_iff_upholds.1 h₀)

end Population

end TangledPrograms
