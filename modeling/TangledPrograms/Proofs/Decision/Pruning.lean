import TangledPrograms.Proofs.Decision.Congruence
import TangledPrograms.Proofs.Population.Growth

/-!
# Removals and the decisions that remain

In a population that the recount accepts, a team without references is no learner's action, so no
decision enters it but its own; and a learner without references is on no team, so it never bids. The
removal of either leaves every other decision as it was.
-/

namespace TangledPrograms.Population

variable {p q : Population}

/-- No live learner's action is a team that counts no reference. -/
theorem Filed.target_ne (h : Filed p) {t : TeamId} {team : Team} (ht : p.teams.find? t = some team)
    (hzero : team.references = 0) {l : LearnerId} {learner : Learner}
    (hl : p.learners.find? l = some learner) : learner.action.target? ≠ some t := fun htarget =>
  h.not_mem_actionTargets ht hzero (mem_actionTargets_iff.2 ⟨l, learner, hl, htarget⟩)

/-- No live team lists a learner that counts no reference. -/
theorem Filed.not_mem (h : Filed p) {l : LearnerId} {learner : Learner}
    (hl : p.learners.find? l = some learner) (hzero : learner.references = 0) {t : TeamId}
    {team : Team} (ht : p.teams.find? t = some team) : l ∉ team.members := fun hlisted =>
  h.not_mem_memberships hl hzero (mem_memberships_iff.2 ⟨t, team, ht, hlisted⟩)

theorem removeTeam_agreeOn (hp : Filed p) {t : TeamId} {team : Team}
    (h : p.removeTeam t = .done team q) : p.AgreeOn q (· ≠ t) := by
  obtain ⟨e, he⟩ | ⟨team', ht, hzero, -, he⟩ := p.removeTeam_cases t
  · rw [he] at h
    cases h
  · rw [he] at h
    cases h
    have hteams : ∀ u, u ≠ t → (team.members.foldl releaseLearner
        { p with teams := p.teams.erase t }).teams.find? u = p.teams.find? u := by
      intro u hu
      rw [foldl_releaseLearner, OrderedMap.find?_erase]
      simp [hu]
    constructor
    · intro u hu
      rw [hteams u hu]
    · intro u other _ _ l _
      rw [find?_foldl_releaseLearner]
      cases p.learners.find? l with
      | none => exact .none
      | some learner => exact .some (learner.alike_references _)
    · rintro u other - - l - learner v hl ha rfl
      exact hp.target_ne ht hzero hl (by rw [ha]; rfl)

theorem removeLearner_agreeOn (hp : Filed p) {l : LearnerId} {learner : Learner}
    (h : p.removeLearner l = .done learner q) : p.AgreeOn q fun _ => True := by
  obtain ⟨e, he⟩ | ⟨learner', hl, hzero, -, he⟩ := p.removeLearner_cases l
  · rw [he] at h
    cases h
  · rw [he] at h
    cases h
    constructor
    · intro t _
      rw [find?_releaseTarget]
      cases p.teams.find? t with
      | none => rfl
      | some team =>
        simp only [Option.map_some]
        split <;> rfl
    · intro t team _ ht k hk
      have hne : k ≠ l := by
        rintro rfl
        exact hp.not_mem hl hzero ht hk
      rw [learners_releaseTarget, OrderedMap.find?_erase]
      simpa [hne] using optionRel_alike_self _
    · exact fun _ _ _ _ _ _ _ _ _ _ => trivial

/-- In a population that the recount accepts, the removal of a team changes no decision but its own,
and the removal of a learner changes none at all: neither the result, nor the bank, nor who has bid. -/
theorem removal_keeps_decisions (hkeyed : p.Keyed) (hp : p.checkReferences = .ok ()) :
    (∀ t team q, p.removeTeam t = .done team q → ∀ u, u ≠ t → ∀ input bank,
      q.act u input bank = p.act u input bank) ∧
    ∀ l learner q, p.removeLearner l = .done learner q → ∀ u input bank,
      q.act u input bank = p.act u input bank := by
  have hfiled := hkeyed.filed hp
  constructor
  · intro t team q hq u hu input bank
    exact teamAct_congr (removeTeam_agreeOn hfiled hq) hu input bank []
  · intro l learner q hq u input bank
    exact teamAct_congr (removeLearner_agreeOn hfiled hq) (t := u) trivial input bank []

/-- Two teams that share a learner; a second learner, whose action is the first team, is on no team. -/
def sharing : Population where
  settings := {}
  ranges := .ofSettings {}
  counters := ⟨2, 2, 2⟩
  teams := .ofList [(⟨0⟩, ⟨⟨0⟩, [⟨0⟩], 1, .empty⟩), (⟨1⟩, ⟨⟨1⟩, [⟨0⟩], 0, .empty⟩)]
  learners := .ofList [
    (⟨0⟩, ⟨⟨0⟩, ⟨⟨0⟩, [⟨1, 0, 0, 0, 0, 0⟩]⟩, .scalar, .full, 0, .atomic (.label 7), 2, 8, []⟩),
    (⟨1⟩, ⟨⟨1⟩, ⟨⟨1⟩, [⟨1, 0, 0, 0, 0, 0⟩]⟩, .scalar, .full, 0, .team ⟨0⟩, 0, 8, []⟩)]

theorem sharing_keeps_decisions :
    sharing.Keyed ∧ sharing.checkReferences = .ok () ∧
      (∃ team q, sharing.removeTeam ⟨1⟩ = .done team q ∧
        q.act ⟨0⟩ oneNumber (.zeros 1 1) = sharing.act ⟨0⟩ oneNumber (.zeros 1 1)) ∧
      ∃ learner q, sharing.removeLearner ⟨1⟩ = .done learner q ∧
        q.act ⟨1⟩ oneNumber (.zeros 1 1) = sharing.act ⟨1⟩ oneNumber (.zeros 1 1) := by
  have hkeyed : sharing.Keyed := by decide
  have hp : sharing.checkReferences = .ok () := rfl
  obtain ⟨hteam, hlearner⟩ := removal_keeps_decisions hkeyed hp
  refine ⟨hkeyed, hp, ⟨_, _, rfl, hteam ⟨1⟩ _ _ rfl ⟨0⟩ (by decide) oneNumber (.zeros 1 1)⟩,
    ⟨_, _, rfl, hlearner ⟨1⟩ _ _ rfl ⟨1⟩ oneNumber (.zeros 1 1)⟩⟩

end TangledPrograms.Population
