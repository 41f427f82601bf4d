import TangledPrograms.Proofs.Population.Growth
import TangledPrograms.Snapshot.Basic

/-!
# Numbers given out after a restoration

A restoration recounts all edges but does not compare the counters with the nodes. So a restored
population goes on without collisions, as long as its counters are words, exactly if they are past
all its nodes.
-/

namespace TangledPrograms

namespace Snapshot

open Population (CreatesFresh Filed Numbered)

variable {F : TimeFormat} {s : Snapshot F} {p : Population} {agents : List AgentRecord}

/-- What a restoration checks, and what it gives out. -/
theorem restore_eq_ok_iff : s.restore = .ok (p, agents) ↔
    s.version = currentVersion ∧ s.settings.check = .ok () ∧ s.ranges.maxLength ≠ 0 ∧
    s.danglingRoot? s.assemble = none ∧ s.assemble.checkReferences = .ok () ∧
    p = s.assemble ∧ agents = s.agents := by
  by_cases hversion : s.version = currentVersion
  · cases hcheck : s.settings.check with
    | error e => simp [restore, hversion, hcheck]
    | ok =>
      by_cases hlength : s.ranges.maxLength = 0
      · simp [restore, hversion, hcheck, hlength]
      · cases hroot : s.danglingRoot? s.assemble with
        | some t => simp [restore, hversion, hcheck, hlength, hroot]
        | none =>
          cases hedges : s.assemble.checkReferences <;>
            simp [restore, hversion, hcheck, hlength, hroot, hedges, eq_comm]
  · simp [restore, hversion]

theorem eq_of_restore (h : s.restore = .ok (p, agents)) :
    p = s.assemble ∧ agents = s.agents ∧ p.checkReferences = .ok () := by
  obtain ⟨-, -, -, -, hedges, rfl, rfl⟩ := restore_eq_ok_iff.1 h
  exact ⟨rfl, rfl, hedges⟩

theorem mem_teams_of_find? {t : TeamId} {team : Team} (h : s.assemble.teams.find? t = some team) :
    team ∈ s.teams ∧ team.id = t := by
  obtain ⟨_, hmem, hteam⟩ := List.mem_map.1 (OrderedMap.mem_of_find?_ofList h)
  cases hteam
  exact ⟨hmem, rfl⟩

theorem mem_learners_of_find? {l : LearnerId} {learner : Learner}
    (h : s.assemble.learners.find? l = some learner) : learner ∈ s.learners ∧ learner.id = l := by
  obtain ⟨_, hmem, hlearner⟩ := List.mem_map.1 (OrderedMap.mem_of_find?_ofList h)
  cases hlearner
  exact ⟨hmem, rfl⟩

theorem keyed_assemble (s : Snapshot F) : s.assemble.Keyed :=
  ⟨fun _ _ ht => (mem_teams_of_find? ht).2, fun _ _ hl => (mem_learners_of_find? hl).2⟩

theorem keyed_of_restore (h : s.restore = .ok (p, agents)) : p.Keyed := by
  obtain ⟨rfl, -, -⟩ := eq_of_restore h
  exact s.keyed_assemble

theorem filed_of_restore (h : s.restore = .ok (p, agents)) : Filed p :=
  (keyed_of_restore h).filed (eq_of_restore h).2.2

theorem numbered_assemble (hteams : ∀ team ∈ s.teams, team.id.index < s.counters.nextTeam)
    (hlearners : ∀ learner ∈ s.learners, learner.id.index < s.counters.nextLearner) :
    Numbered s.assemble := by
  refine ⟨fun t ht _ => ?_, fun l hl _ => ?_⟩
  · obtain ⟨team, hteam⟩ := OrderedMap.contains_iff.1 ht
    obtain ⟨hmem, rfl⟩ := mem_teams_of_find? hteam
    exact hteams team hmem
  · obtain ⟨learner, hlearner⟩ := OrderedMap.contains_iff.1 hl
    obtain ⟨hmem, rfl⟩ := mem_learners_of_find? hlearner
    exact hlearners learner hmem

/-- A restored population makes no new node in the place of a live one, as long as its counters stay
words, exactly if they are past all live numbers that can be given out. -/
theorem restored_createsFresh_iff (h : s.restore = .ok (p, agents)) (hfits : s.counters.Fits) :
    CreatesFresh p ↔ Numbered p := by
  have hcounters : p.counters = s.counters := by
    obtain ⟨rfl, -, -⟩ := eq_of_restore h
    rfl
  exact Population.createsFresh_iff (filed_of_restore h) (hcounters ▸ hfits)

/-- A learner with a single instruction that remembers nothing. -/
def plainLearner (l : LearnerId) (action : Action) (references : Nat) : Learner where
  id := l
  program := ⟨⟨l.index⟩, [⟨1, 0, 0, 0, 0, 0⟩]⟩
  mode := .scalar
  addressing := .full
  group := 0
  action
  references
  registers := 8
  memory := []

/-- Two teams with a member in common. The other member of the first team leads back to that team, and
the nodes stand in another order than that of their numbers. -/
def network : Snapshot where
  version := currentVersion
  savedAt := .epoch
  settings := {}
  ranges := .ofSettings {}
  counters := ⟨2, 2, 5⟩
  teams := [⟨⟨4⟩, [⟨1⟩, ⟨0⟩], 1, .empty⟩, ⟨⟨2⟩, [⟨1⟩], 0, .empty⟩]
  learners := [plainLearner ⟨1⟩ (.atomic (.label 1)) 2, plainLearner ⟨0⟩ (.team ⟨4⟩) 1]
  agents := [⟨⟨2⟩, 1, .empty⟩]

theorem restore_network : network.restore = .ok (network.assemble, network.agents) := by
  decide +kernel

theorem network_createsFresh : ∃ p, network.restore = .ok (p, network.agents) ∧
    network.counters.Fits ∧ CreatesFresh p := by
  have hfits : network.counters.Fits := by
    refine ⟨?_, ?_, ?_⟩ <;> decide
  have hnumbered : Numbered network.assemble := numbered_assemble (by decide) (by decide)
  exact ⟨_, restore_network, hfits, (restored_createsFresh_iff restore_network hfits).2 hnumbered⟩

/-- A team with its member, under the given counters. -/
def pair (counters : IdCounters) : Snapshot where
  version := currentVersion
  savedAt := .epoch
  settings := {}
  ranges := .ofSettings {}
  counters
  teams := [⟨⟨0⟩, [⟨0⟩], 0, .empty⟩]
  learners := [plainLearner ⟨0⟩ (.atomic (.label 1)) 1]
  agents := []

/-- With counters at zero the next team replaces the live one, and its member is left with a count
that no edge accounts for. -/
theorem pair_rewound : ∃ p, (pair ⟨1, 0, 0⟩).restore = .ok (p, []) ∧
    p.teams.contains p.addTeam.1 = true ∧
    p.addTeam.2.checkReferences = .error (.referenceMismatch (.learner ⟨0⟩) 1 0) ∧
    ¬ CreatesFresh p := by
  have hrestore : (pair ⟨1, 0, 0⟩).restore = .ok ((pair ⟨1, 0, 0⟩).assemble, []) := by decide +kernel
  have hlive : (pair ⟨1, 0, 0⟩).assemble.teams.contains ⟨0⟩ = true := by decide
  have hfits : (pair ⟨1, 0, 0⟩).counters.Fits := by
    refine ⟨?_, ?_, ?_⟩ <;> decide
  have hlt : ¬ Numbered (pair ⟨1, 0, 0⟩).assemble := fun h => by
    exact absurd (h.team_lt ⟨0⟩ hlive (by decide)) (by decide)
  refine ⟨_, hrestore, hlive, by decide, fun h => hlt ?_⟩
  exact (Population.createsFresh_iff (filed_of_restore hrestore) hfits).1 h

end Snapshot

end TangledPrograms
