import TangledPrograms.Proofs.Snapshot.Recount

/-!
# Capturing what was restored

A restoration puts the nodes of a snapshot under their numbers and looks at edges and counts only
then. Of several nodes with one number the last stays; the others are gone before anything of them is
checked. So a capture of the restored population has all the nodes of the snapshot exactly if no two
teams and no two learners share a number.
-/

namespace TangledPrograms

namespace Snapshot

variable {F : TimeFormat} {s : Snapshot F} {p : Population} {agents : List AgentRecord}

theorem version_of_restore (h : s.restore = .ok (p, agents)) : s.version = currentVersion :=
  (restore_eq_ok_iff.1 h).1

/-- Nodes that all stay have numbers of their own, since the maps of a population do. -/
theorem distinct_of_perm {savedAt : Timestamp F}
    (hteams : (capture s.assemble savedAt).teams.Perm s.teams)
    (hlearners : (capture s.assemble savedAt).learners.Perm s.learners) : s.Distinct where
  teams := (hteams.map Team.id).nodup_iff.1 (OrderedMap.nodup_map_values s.keyed_assemble.team)
  learners := (hlearners.map Learner.id).nodup_iff.1
    (OrderedMap.nodup_map_values s.keyed_assemble.learner)

/-- A capture of what was restored differs from the snapshot in nothing but the nodes, the time and the
agents. Its nodes are the last ones of each number, and so all of them exactly if no two teams and no
two learners share a number. -/
theorem recaptured_perm_iff (h : s.restore = .ok (p, agents)) (savedAt : Timestamp F) :
    { capture p savedAt with
      savedAt := s.savedAt, teams := s.teams, learners := s.learners, agents := s.agents } = s ∧
    (∀ team, team ∈ (capture p savedAt).teams ↔
      ∃ earlier later, s.teams = earlier ++ team :: later ∧
        ∀ other ∈ later, other.id ≠ team.id) ∧
    (∀ learner, learner ∈ (capture p savedAt).learners ↔
      ∃ earlier later, s.learners = earlier ++ learner :: later ∧
        ∀ other ∈ later, other.id ≠ learner.id) ∧
    ((capture p savedAt).teams.Perm s.teams ∧ (capture p savedAt).learners.Perm s.learners ↔
      s.Distinct) := by
  have hversion := version_of_restore h
  obtain ⟨rfl, -, -⟩ := eq_of_restore h
  refine ⟨?_, fun _ => OrderedMap.mem_values_ofList_iff,
    fun _ => OrderedMap.mem_values_ofList_iff, ?_⟩
  · rw [capture, ← hversion]
    rfl
  · constructor
    · rintro ⟨hteams, hlearners⟩
      exact distinct_of_perm hteams hlearners
    · intro hdistinct
      exact ⟨OrderedMap.perm_values_ofList hdistinct.teams,
        OrderedMap.perm_values_ofList hdistinct.learners⟩

/-- A capture of the restored network has its nodes in ascending order. -/
theorem network_recaptured : network.restore = .ok (network.assemble, network.agents) ∧
    (capture network.assemble .epoch).teams.Perm network.teams ∧
    (capture network.assemble .epoch).learners.Perm network.learners ∧
    (capture network.assemble .epoch).teams.map Team.id = [⟨2⟩, ⟨4⟩] ∧
    (capture network.assemble .epoch).learners.map Learner.id = [⟨0⟩, ⟨1⟩] := by
  have hrestore : network.restore = .ok (network.assemble, network.agents) := restore_network
  obtain ⟨hteams, hlearners⟩ := (recaptured_perm_iff hrestore .epoch).2.2.2.2 ⟨by decide, by decide⟩
  exact ⟨hrestore, hteams, hlearners, by decide, by decide⟩

/-- Before the team that its learner counts there is another one of the same number, which lists a
learner that is not there. -/
def doubled : Snapshot :=
  { pair ⟨1, 1, 1⟩ with teams := ⟨⟨0⟩, [⟨7⟩], 3, .empty⟩ :: (pair ⟨1, 1, 1⟩).teams }

/-- It is accepted, and a capture of what comes of it has one team fewer. -/
theorem doubled_shrinks : doubled.restore = .ok ((pair ⟨1, 1, 1⟩).assemble, []) ∧
    doubled.teams.length = 2 ∧
    ∀ (F : TimeFormat) (savedAt : Timestamp F),
      (capture (pair ⟨1, 1, 1⟩).assemble savedAt).teams.length = 1 ∧
      ¬ (capture (pair ⟨1, 1, 1⟩).assemble savedAt).teams.Perm doubled.teams := by
  have hrestore : doubled.restore = .ok ((pair ⟨1, 1, 1⟩).assemble, []) := by decide +kernel
  refine ⟨hrestore, rfl, fun F savedAt => ⟨rfl, fun hperm => ?_⟩⟩
  have hlength : 1 = 2 := hperm.length_eq
  cases hlength

end Snapshot

end TangledPrograms
