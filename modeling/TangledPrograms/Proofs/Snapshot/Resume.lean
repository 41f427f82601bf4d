import TangledPrograms.Proofs.Population.Coherence
import TangledPrograms.Proofs.Population.Lockstep
import TangledPrograms.Proofs.Population.Reached
import TangledPrograms.Proofs.Snapshot.File
import TangledPrograms.Proofs.Snapshot.Numbering

/-!
# Populations resume from files

A population that commands have led to is saved and restored without loss but for the memories of its
learners. From there the restored population goes on as the saved one would have, as long as no
uniqueness corpus is built.
-/

namespace TangledPrograms

open Population (Sound Coherent Run)

namespace Population

/-- The numbers and lengths of a population fit their widths in the file, as machine words do. -/
structure Fits (p : Population) : Prop where
  settings : p.settings.Fits
  ranges : p.ranges.Fits
  counters : p.counters.Fits
  teams : FitsAll Team.Fits p.teams.values
  learners : FitsAll Learner.Fits p.learners.values

variable {s : Settings} {p₀ p : Population}

theorem edgesTo_forget (p : Population) (t : TeamId) : p.forget.edgesTo t = p.edgesTo t := by
  simp only [edgesTo, forget, OrderedMap.values_mapValues, List.countP_map]
  rfl

theorem Sound.forget (h : Sound p) : Sound p.forget where
  team t team ht := by
    obtain ⟨hid, hlt, hnodup, hlive, hcount⟩ := h.team t team ht
    refine ⟨hid, hlt, hnodup, fun l hl => ?_, ?_⟩
    · exact (OrderedMap.contains_mapValues ..).trans (hlive l hl)
    · rwa [edgesTo_forget]
  learner l learner hl := by
    rw [find?_forget] at hl
    obtain ⟨learner', hl', rfl⟩ := Option.map_eq_some_iff.1 hl
    obtain ⟨hid, hlt, hlive, hcount⟩ := h.learner l learner' hl'
    exact ⟨hid, hlt, hlive, hcount⟩

end Population

namespace Snapshot

variable {F : TimeFormat} {s : Settings} {p₀ p : Population} {savedAt : Timestamp F}
  {agents : List Agent}

theorem forget_capture (p : Population) (savedAt : Timestamp F) (agents : List Agent) :
    ((capture p savedAt).withAgents agents).forget = (capture p.forget savedAt).withAgents agents := by
  simp only [forget, withAgents, capture, Population.forget, OrderedMap.values_mapValues]

theorem assemble_capture (h : Sound p) (savedAt : Timestamp F) (agents : List Agent) :
    ((capture p savedAt).withAgents agents).assemble = p := by
  simp only [assemble, withAgents, capture]
  rw [OrderedMap.ofList_values fun t team ht => (h.team t team ht).id_eq,
    OrderedMap.ofList_values fun l learner hl => (h.learner l learner hl).id_eq]

/-- A sound population is restored from its image. -/
theorem restore_capture (h : Sound p) (hsettings : p.settings.check = .ok ())
    (hranges : p.ranges.maxLength ≠ 0) (hroots : ∀ a ∈ agents, p.teams.contains a.root = true) :
    ((capture p savedAt).withAgents agents).restore = .ok (p, agents.map Agent.record) := by
  have hdangling : ((capture p savedAt).withAgents agents).danglingRoot? p = none := by
    refine List.find?_eq_none.2 fun t ht => ?_
    obtain ⟨r, hr, rfl⟩ := List.mem_map.1 ht
    obtain ⟨a, ha, rfl⟩ := List.mem_map.1 hr
    simpa [Agent.record] using hroots a ha
  refine restore_eq_ok_iff.2 ⟨rfl, hsettings, hranges, ?_, ?_, (assemble_capture h ..).symm, rfl⟩
  · rwa [assemble_capture h]
  · rw [assemble_capture h]
    exact h.checkReferences

theorem fits_capture (hc : Coherent s p) (hp : p.Fits) (hsaved : savedAt.Legible)
    (ha : FitsAll AgentRecord.Fits (agents.map Agent.record)) :
    ((capture p savedAt).withAgents agents).Fits where
  version := show 1 < 2 ^ 32 by decide
  savedAt := hsaved
  settings := hp.settings
  ranges := hp.ranges
  counters := hp.counters
  teams := hp.teams
  learners := ⟨hp.learners.1, fun learner hmem => by
    obtain ⟨l, hl⟩ := OrderedMap.mem_values_iff.1 hmem
    exact ⟨hc.addressing l learner hl, hp.learners.2 learner hmem⟩⟩
  agents := ha

end Snapshot

namespace Population

/-- A reached population is loaded and restored without its memories. -/
theorem exists_image {s : Settings} {p₀ p : Population} (h₀ : Population.new s = .ok p₀)
    (h : Run Command.Coherent p₀ p) (hp : p.Fits) {F : TimeFormat} {savedAt : Timestamp F}
    (hsaved : savedAt.Legible) {agents : List Agent}
    (hroots : ∀ a ∈ agents, p.teams.contains a.root = true)
    (ha : FitsAll AgentRecord.Fits (agents.map Agent.record))
    (hlength : ((Snapshot.capture p savedAt).withAgents agents).payload.length < 2 ^ 64) :
    ∃ image,
      Snapshot.ofFile (some ((Snapshot.capture p savedAt).withAgents agents).file) F = .ok image ∧
      image.restore = .ok (p.forget, agents.map Agent.record) := by
  have hsound := h.sound (.new h₀)
  have hcoherent := h.coherent (.new h₀)
  have hranges : p.ranges.maxLength ≠ 0 := by
    rw [hcoherent.ranges]
    exact Nat.ne_of_gt (Nat.le_max_right ..)
  have hload := Snapshot.ofFile_file (Snapshot.fits_capture hcoherent hp hsaved ha) hlength
  rw [Snapshot.forget_capture] at hload
  exact ⟨_, hload, Snapshot.restore_capture hsound.forget
    (hcoherent.settings ▸ (new_eq_ok h₀).1) hranges hroots⟩

/-- A reached population whose numbers fit is loaded from its file and restored, with the records of
its agents, as the same population without memories. From there commands that build no uniqueness
corpus, each on the same random words, are answered alike by both populations, halt alike, leave the
same words and keep the populations the same, all but for memories. -/
theorem restored_resumes {s : Settings} {p₀ p : Population} (h₀ : Population.new s = .ok p₀)
    (h : Run Command.Coherent p₀ p) (hp : p.Fits) {F : TimeFormat} {savedAt : Timestamp F}
    (hsaved : savedAt.Legible) {agents : List Agent}
    (hroots : ∀ a ∈ agents, p.teams.contains a.root = true)
    (ha : FitsAll AgentRecord.Fits (agents.map Agent.record))
    (hlength : ((Snapshot.capture p savedAt).withAgents agents).payload.length < 2 ^ 64) :
    ∃ image,
      Snapshot.ofFile (some ((Snapshot.capture p savedAt).withAgents agents).file) F = .ok image ∧
      image.restore = .ok (p.forget, agents.map Agent.record) ∧
      ∀ commands : List (Command × Source), (∀ c ∈ commands, c.1.buildsCorpus = false) →
        (Command.performAll commands p.forget).map Reply.forgetAll =
          (Command.performAll commands p).map Reply.forgetAll := by
  obtain ⟨image, hload, hrestore⟩ := exists_image h₀ h hp hsaved hroots ha hlength
  exact ⟨image, hload, hrestore, fun commands hcommands =>
    Command.performAll_congr hcommands p.forget_forget⟩

/-- A learner of no team that has seen the number 1. -/
def formerMember : Learner where
  id := ⟨0⟩
  program := ⟨⟨0⟩, [⟨1, 0, 0, 0, 0, 0⟩]⟩
  mode := .scalar
  addressing := .full
  group := 0
  action := .atomic (.label 1)
  references := 0
  registers := 8
  memory := [oneNumber]

/-- A team and a learner that was its member when it decided. -/
def remembering : Population where
  settings := {}
  ranges := .ofSettings {}
  counters := ⟨0, 1, 1⟩
  teams := .ofList [(⟨0⟩, ⟨⟨0⟩, [], 0, .empty⟩)]
  learners := .ofList [(⟨0⟩, formerMember)]

theorem exists_run_remembering :
    ∃ p₀, Population.new {} = .ok p₀ ∧ Run Command.Coherent p₀ remembering := by
  obtain ⟨p₀, h₀, hrun⟩ : ∃ p₀, Population.new {} = .ok p₀ ∧ Run Command.Coherent p₀ (listening {}) :=
    exists_run_listening (by decide +kernel) trivial trivial trivial trivial
  let source : Source := ⟨fun _ => 0, 0, 0⟩
  have hleave : (Command.leave ⟨0⟩ ⟨0⟩).perform (listening {}) source =
      .ok ((.done, remembering), source) := rfl
  have hadmitted : Command.Coherent (.leave ⟨0⟩ ⟨0⟩) := trivial
  exact ⟨p₀, h₀, .step hrun hadmitted hleave⟩

theorem remembering_fits : remembering.Fits := by
  have hzero : FitsWord 0 := by decide
  have hone : FitsWord 1 := by decide
  have hsettings : Settings.Fits {} := by
    refine ⟨?_, ⟨?_, ?_, ?_⟩, ⟨⟨?_, ?_⟩, ?_, ?_, ?_⟩, ⟨?_, ?_⟩, ?_⟩ <;> decide
  refine ⟨hsettings, (show FitsWord remembering.ranges.maxLength by decide), ⟨hzero, hone, hone⟩,
    ⟨hone, fun t ht => ?_⟩, ⟨hone, fun l hl => ?_⟩⟩
  · obtain rfl := List.mem_singleton.1 ht
    exact ⟨hzero, ⟨hzero, nofun⟩, by decide, hzero, nofun⟩
  · obtain rfl := List.mem_singleton.1 hl
    exact ⟨hzero, ⟨hzero, hone, fun _ _ => trivial⟩, trivial, hzero, trivial, by decide, by decide⟩

theorem remembering_resumes :
    let evaluator : Agent := ⟨⟨0⟩, 3, .zeros 1 1, .empty⟩
    let saved := (Snapshot.capture remembering .epoch).withAgents [evaluator]
    ∃ p₀ image, Population.new {} = .ok p₀ ∧ Run Command.Coherent p₀ remembering ∧
      Snapshot.ofFile (some saved.file) = .ok image ∧
      image.restore = .ok (remembering.forget, [evaluator.record]) ∧
      ∀ commands : List (Command × Source), (∀ c ∈ commands, c.1.buildsCorpus = false) →
        (Command.performAll commands remembering.forget).map Reply.forgetAll =
          (Command.performAll commands remembering).map Reply.forgetAll := by
  intro evaluator saved
  obtain ⟨p₀, h₀, hrun⟩ := exists_run_remembering
  have hroots : ∀ a ∈ [evaluator], remembering.teams.contains a.root = true := by
    intro a ha
    obtain rfl := List.mem_singleton.1 ha
    rfl
  have hagents : FitsAll AgentRecord.Fits ([evaluator].map Agent.record) := by
    refine ⟨by decide, fun r hr => ?_⟩
    obtain rfl := List.mem_singleton.1 hr
    exact ⟨show FitsWord 0 by decide, show FitsWord 3 by decide, by decide, nofun⟩
  have hlength : saved.payload.length < 2 ^ 64 := by decide +kernel
  obtain ⟨image, hload, hrestore, hlockstep⟩ :=
    restored_resumes h₀ hrun remembering_fits Timestamp.legible_epoch hroots hagents hlength
  exact ⟨p₀, image, h₀, hrun, hload, hrestore, hlockstep⟩

/-- Replies do tell the two populations apart: a learner is handed out with its memory. -/
theorem removed_learner_remembers :
    let saved := (Snapshot.capture remembering .epoch).withAgents []
    let commands : List (Command × Source) := [(.removeLearner ⟨0⟩, ⟨fun _ => 0, 0, 0⟩)]
    ∃ p₀ image p, Population.new {} = .ok p₀ ∧ Run Command.Coherent p₀ remembering ∧
      Snapshot.ofFile (some saved.file) = .ok image ∧ image.restore = .ok (p, []) ∧
      (∀ c ∈ commands, c.1.buildsCorpus = false) ∧
      (Command.performAll commands p).map Prod.fst ≠
        (Command.performAll commands remembering).map Prod.fst := by
  intro saved commands
  obtain ⟨p₀, h₀, hrun⟩ := exists_run_remembering
  have hlength : saved.payload.length < 2 ^ 64 := by decide +kernel
  have hroots : ∀ a ∈ ([] : List Agent), remembering.teams.contains a.root = true := nofun
  obtain ⟨image, hload, hrestore⟩ :=
    exists_image h₀ hrun remembering_fits Timestamp.legible_epoch hroots ⟨by decide, nofun⟩ hlength
  refine ⟨p₀, image, _, h₀, hrun, hload, hrestore, by decide, fun h => ?_⟩
  have hreplies : (Except.ok [(Reply.removedLearner formerMember.forget, _)] :
      Except Halt (List (Reply × Source))) = .ok [(.removedLearner formerMember, _)] := h
  simp [formerMember, Learner.forget] at hreplies

end Population

end TangledPrograms
