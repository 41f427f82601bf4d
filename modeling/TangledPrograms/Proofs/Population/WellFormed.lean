import TangledPrograms.Proofs.Placement
import TangledPrograms.Proofs.Population.Laws
import TangledPrograms.Proofs.Program.Inheritance
import TangledPrograms.Proofs.Settings.Accepted

/-!
# Learners stay as the settings have them

Learners that are made with random parts, or from other learners, are as the settings of the population
have it: their program and share group lie within the ranges, they run in vector mode only where it is
allowed, they remember no more than they may, and their windows lie in the block. Every change that
commands make keeps this.
-/

namespace TangledPrograms

open Draw

def Command.Generated : Command → Prop
  | .addLearnerWith .. => False
  | _ => True

/-- A learner as the settings have it. -/
structure Learner.WellFormed (s : Settings) (l : Learner) : Prop where
  program : Program.Bounded (.ofSettings s.program) l.program.code
  group : l.group < s.registers.sharedGroups
  registers : l.registers = s.registers.count
  mode : l.mode = .vector → s.addressing.vectorMode = true
  memory : l.memory.length ≤ s.stateHistory
  addressing : l.addressing.WellPlaced s.addressing

theorem Learner.length_memory_remember {l : Learner} {limit : ℕ} (h : l.memory.length ≤ limit)
    (input : Observation) : (l.remember input limit).memory.length ≤ limit := by
  rw [remember]
  split
  · exact h
  · rw [List.length_append, List.length_drop, List.length_singleton]
    omega

namespace Population

variable {s : Settings} {p₀ p : Population}

/-- Being as the settings have it, as a law of single nodes. -/
private abbrev conformity (s : Settings) : NodeLaw :=
  ⟨fun _ _ => True, fun _ learner => learner.WellFormed s⟩

section law

variable (hsmall : ∀ d ∈ s.addressing.sourceShape, d < 2 ^ 63)
include hsmall

private theorem stable_conformity :
    (conformity s).Stable (fun _ => True) s (.ofSettings s.program) where
  join _ _ _ _ _ := trivial
  leave _ _ _ _ := trivial
  targeted _ _ _ _ := trivial
  scored _ _ _ _ := trivial
  listed _ _ _ h := ⟨h.program, h.group, h.registers, h.mode, h.memory, h.addressing⟩
  acting _ _ _ h := ⟨h.program, h.group, h.registers, h.mode, h.memory, h.addressing⟩
  remembering _ learner input h := by
    have hmemory := learner.length_memory_remember h.memory input
    obtain ⟨memory, hremember⟩ := learner.remember_eq input s.stateHistory
    rw [hremember] at hmemory ⊢
    exact ⟨h.program, h.group, h.registers, h.mode, hmemory, h.addressing⟩
  program _ learner corpus h := by
    have hpositive := InstructionRanges.positive_ofSettings s.program
    have hmutate := Program.ensures_mutate hpositive h.program s.mutation corpus
    exact hmutate.meets.mono fun o ho =>
      ⟨ho, h.group, h.registers, h.mode, h.memory, h.addressing⟩
  mode hvector _ _ h := ⟨h.program, h.group, h.registers, fun _ => hvector, h.memory, h.addressing⟩
  group _ learner g hg h := by
    have hlt : g.toNat < s.registers.sharedGroups := by
      rw [UInt32.lt_iff_toNat_lt, UInt32.toNat_ofNat'] at hg
      exact hg.trans_le (Nat.mod_le _ _)
    exact ⟨h.program, hlt, h.registers, h.mode, h.memory, h.addressing⟩
  addressing _ learner h := (h.addressing.ensures_perturb hsmall).meets.mono fun o ho =>
    ⟨h.program, h.group, h.registers, h.mode, h.memory, ho⟩

private theorem lasting_conformity (hcheck : s.check = .ok ()) :
    (conformity s).Lasting (fun _ => True) s (.ofSettings s.program) where
  toStable := stable_conformity hsmall
  newTeam _ := trivial
  newLearner id := by
    have hpositive := InstructionRanges.positive_ofSettings s.program
    have hgroups := Settings.sharedGroups_ne_zero hcheck
    refine (Program.ensures_random hpositive id).meets.mono fun program hprogram => ?_
    refine (Addressing.ensures_random (Settings.axis_pos hcheck)).meets.mono
      fun addressing haddressing _ mode group _ hmode hgroup => ?_
    rw [Nat.max_eq_left (Nat.pos_of_ne_zero hgroups)] at hgroup
    exact ⟨hprogram, hgroup, rfl, hmode, Nat.zero_le _, haddressing⟩
  offspring _ _ _ _ h := ⟨h.program, h.group, h.registers, h.mode, Nat.zero_le _, h.addressing⟩

end law

/-- Along any run with generated learners, every learner is as the settings have it. -/
theorem Run.wellFormed (hnew : Population.new s = .ok p₀)
    (hsmall : ∀ d ∈ s.addressing.sourceShape, d < 2 ^ 63) (h : Run Command.Generated p₀ p) :
    p.settings = s ∧ p.ranges = .ofSettings s.program ∧
      ∀ l learner, p.learners.find? l = some learner → learner.WellFormed s := by
  have hadmits : ∀ c, Command.Generated c → (conformity s).Admits s c := by
    intro c hc
    cases c with
    | addLearnerWith => exact hc.elim
    | _ => trivial
  have hlaw := lasting_conformity hsmall (new_eq_ok hnew).1
  have hrun := (h.mono hadmits).upholds hlaw trivial (upholds_new hnew)
  exact ⟨hrun.settings, hrun.ranges, hrun.learner⟩

/-- Learners see two windows of a narrow block, and may run in vector mode. -/
def narrow : Settings :=
  { program := { maxLength := 2 }
    registers := { sharedGroups := 3 }
    addressing :=
      { kind := .multiWindow, sourceShape := [1, 4], kernelSize := 2, vectorMode := true }
    mutation := { program := 1.0, programRepeat := 0.0, action := 1.0 }
    stateHistory := 1 }

/-- A run with a learner that is mutated and cloned. -/
theorem exists_run_narrow : ∃ p₀ p learner clone, Population.new narrow = .ok p₀ ∧
    Run Command.Generated p₀ p ∧ p.learners.find? ⟨0⟩ = some learner ∧
    p.learners.find? ⟨1⟩ = some clone := by
  let p₀ : Population := ⟨narrow, .ofSettings narrow.program, .fresh, .empty, .empty⟩
  let source : Source := ⟨fun _ => 0, 0, 100⟩
  let commands : List (Command × Source) :=
    [(.addLearner (.atomic (.label 1)), source),
      (.mutateLearner ⟨0⟩ ⟨none, [.label 2], []⟩, source), (.cloneLearner ⟨0⟩, source)]
  have hnew : Population.new narrow = .ok p₀ := rfl
  have hlive : ((Command.performAll commands p₀).map Prod.snd).map (fun p =>
      ((p.learners.find? ⟨0⟩).isSome, (p.learners.find? ⟨1⟩).isSome)) = .ok (true, true) := by
    decide +kernel
  have hstart : Run Command.Generated p₀ p₀ := .start
  obtain ⟨p, hrun, hboth⟩ := hstart.exists_performAll (by simp [commands, Command.Generated]) hlive
  obtain ⟨hfirst, hsecond⟩ := Prod.mk.inj hboth
  obtain ⟨learner, hl⟩ := Option.isSome_iff_exists.1 hfirst
  obtain ⟨clone, hclone⟩ := Option.isSome_iff_exists.1 hsecond
  exact ⟨p₀, p, learner, clone, hnew, hrun, hl, hclone⟩

theorem exists_wellFormed_narrow : ∃ p₀ p learner, Population.new narrow = .ok p₀ ∧
    Run Command.Generated p₀ p ∧ p.learners.find? ⟨0⟩ = some learner ∧ learner.WellFormed narrow := by
  obtain ⟨p₀, p, learner, _, hnew, hrun, hl, _⟩ := exists_run_narrow
  have hwellFormed := (hrun.wellFormed hnew (by decide)).2.2 ⟨0⟩ learner hl
  exact ⟨p₀, p, learner, hnew, hrun, hl, hwellFormed⟩

end Population

end TangledPrograms
