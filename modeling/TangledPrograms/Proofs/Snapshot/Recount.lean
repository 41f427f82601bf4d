import TangledPrograms.Proofs.Snapshot.Numbering

/-!
# What a restoration accepts

The recount is stated here over the nodes alone: who targets whom and who lists whom, whatever the
counts are. It accepts a population whose nodes are under their own numbers exactly if each edge leads
to a live node and each node counts the edges that lead to it. So no restored population has a wrong
edge or count, and a snapshot of distinct nodes is refused for each of them.
-/

namespace TangledPrograms

namespace Population

/-- How often the teams list the learner; a team that lists it twice counts twice. -/
def occurrences (p : Population) (l : LearnerId) : Nat :=
  (p.teams.values.map fun team => team.members.count l).sum

/-- All edges lead to live nodes, and all nodes count the edges that lead to them. -/
structure Exact (p : Population) : Prop where
  target : ∀ l learner t, p.learners.find? l = some learner → learner.action.target? = some t →
    p.teams.contains t = true
  member : ∀ t team l, p.teams.find? t = some team → l ∈ team.members →
    p.learners.contains l = true
  team : ∀ t team, p.teams.find? t = some team → team.references = p.edgesTo t
  learner : ∀ l learner, p.learners.find? l = some learner → learner.references = p.occurrences l

variable {p : Population}

theorem count_memberships_eq_occurrences (p : Population) (l : LearnerId) :
    p.memberships.count l = p.occurrences l := List.count_flatMap

theorem Filed.exact (h : Filed p) : p.Exact where
  target l learner t hl ht :=
    h.target_live t (mem_actionTargets_iff.2 ⟨l, learner, hl, ht⟩)
  member t team l ht hl :=
    h.member_live l (mem_memberships_iff.2 ⟨t, team, ht, hl⟩)
  team t team ht := by rw [← (h.team t team ht).2, count_actionTargets]
  learner l learner hl := by rw [← (h.learner l learner hl).2, count_memberships_eq_occurrences]

theorem Exact.filed (h : p.Exact) (hkeyed : p.Keyed) : Filed p where
  target_live t ht := by
    obtain ⟨l, learner, hl, htarget⟩ := mem_actionTargets_iff.1 ht
    exact h.target l learner t hl htarget
  member_live l hl := by
    obtain ⟨t, team, ht, hlisted⟩ := mem_memberships_iff.1 hl
    exact h.member t team l ht hlisted
  team t team ht := ⟨hkeyed.team t team ht, by rw [count_actionTargets, h.team t team ht]⟩
  learner l learner hl := ⟨hkeyed.learner l learner hl, by
    rw [count_memberships_eq_occurrences, h.learner l learner hl]⟩

/-- The recount is sound and complete, as long as nodes are under their own numbers. -/
theorem Keyed.checkReferences_eq_ok_iff (h : p.Keyed) : p.checkReferences = .ok () ↔ p.Exact :=
  ⟨fun hcheck => (h.filed hcheck).exact, fun hexact => (hexact.filed h).checkReferences⟩

end Population

namespace Snapshot

variable {F : TimeFormat}

/-- No two teams and no two learners have one number. -/
structure Distinct (s : Snapshot F) : Prop where
  teams : (s.teams.map Team.id).Nodup
  learners : (s.learners.map Learner.id).Nodup

/-- All edges of a snapshot lead to its nodes, and all its nodes count the edges that lead to
them. -/
structure Exact (s : Snapshot F) : Prop where
  target : ∀ learner ∈ s.learners, ∀ t, learner.action.target? = some t →
    t ∈ s.teams.map Team.id
  member : ∀ team ∈ s.teams, ∀ l ∈ team.members, l ∈ s.learners.map Learner.id
  team : ∀ team ∈ s.teams,
    team.references = s.learners.countP fun learner => learner.action.target? = some team.id
  learner : ∀ learner ∈ s.learners,
    learner.references = (s.teams.map fun team => team.members.count learner.id).sum

variable {s : Snapshot F}

namespace Distinct

theorem find?_team (h : s.Distinct) {t : TeamId} {team : Team} :
    s.assemble.teams.find? t = some team ↔ team ∈ s.teams ∧ team.id = t :=
  OrderedMap.find?_ofList_eq_some_iff h.teams

theorem find?_learner (h : s.Distinct) {l : LearnerId} {learner : Learner} :
    s.assemble.learners.find? l = some learner ↔ learner ∈ s.learners ∧ learner.id = l :=
  OrderedMap.find?_ofList_eq_some_iff h.learners

theorem contains_team (h : s.Distinct) {t : TeamId} :
    s.assemble.teams.contains t = true ↔ t ∈ s.teams.map Team.id := by
  simp only [OrderedMap.contains_iff, h.find?_team, List.mem_map]

theorem contains_learner (h : s.Distinct) {l : LearnerId} :
    s.assemble.learners.contains l = true ↔ l ∈ s.learners.map Learner.id := by
  simp only [OrderedMap.contains_iff, h.find?_learner, List.mem_map]

theorem edgesTo_assemble (h : s.Distinct) (t : TeamId) :
    s.assemble.edgesTo t = s.learners.countP fun learner => learner.action.target? = some t :=
  (OrderedMap.perm_values_ofList h.learners).countP_eq _

theorem occurrences_assemble (h : s.Distinct) (l : LearnerId) :
    s.assemble.occurrences l = (s.teams.map fun team => team.members.count l).sum :=
  ((OrderedMap.perm_values_ofList h.teams).map _).sum_eq

/-- Nothing is lost where no two nodes have one number. -/
theorem exact_assemble_iff (h : s.Distinct) : s.assemble.Exact ↔ s.Exact := by
  constructor
  · intro hexact
    constructor
    · intro learner hl t ht
      exact h.contains_team.1 (hexact.target learner.id learner t (h.find?_learner.2 ⟨hl, rfl⟩) ht)
    · intro team ht l hl
      exact h.contains_learner.1 (hexact.member team.id team l (h.find?_team.2 ⟨ht, rfl⟩) hl)
    · intro team ht
      rw [← h.edgesTo_assemble]
      exact hexact.team team.id team (h.find?_team.2 ⟨ht, rfl⟩)
    · intro learner hl
      rw [← h.occurrences_assemble]
      exact hexact.learner learner.id learner (h.find?_learner.2 ⟨hl, rfl⟩)
  · intro hexact
    constructor
    · intro l learner t hl ht
      exact h.contains_team.2 (hexact.target learner (h.find?_learner.1 hl).1 t ht)
    · intro t team l ht hl
      exact h.contains_learner.2 (hexact.member team (h.find?_team.1 ht).1 l hl)
    · intro t team ht
      obtain ⟨hmem, rfl⟩ := h.find?_team.1 ht
      rw [h.edgesTo_assemble]
      exact hexact.team team hmem
    · intro l learner hl
      obtain ⟨hmem, rfl⟩ := h.find?_learner.1 hl
      rw [h.occurrences_assemble]
      exact hexact.learner learner hmem

/-- Of distinct nodes, exactly those with right edges and counts pass the recount. -/
theorem checkReferences_assemble_iff (h : s.Distinct) :
    s.assemble.checkReferences = .ok () ↔ s.Exact :=
  s.keyed_assemble.checkReferences_eq_ok_iff.trans h.exact_assemble_iff

end Distinct

/-- The recount accepts exactly the populations whose edges and counts are right. A restoration gives
out no other, and refuses every snapshot of distinct nodes in which an edge or a count is wrong. -/
theorem restore_recounts :
    (∀ p : Population, p.Keyed → (p.checkReferences = .ok () ↔ p.Exact)) ∧
    (∀ (F : TimeFormat) (s : Snapshot F) (p : Population) (agents : List AgentRecord),
      s.restore = .ok (p, agents) → p.Exact) ∧
    ∀ (F : TimeFormat) (s : Snapshot F), s.Distinct → ¬ s.Exact → ∃ e, s.restore = .error e := by
  refine ⟨fun p hp => hp.checkReferences_eq_ok_iff, fun F s p agents h => ?_, fun F s hs hwrong => ?_⟩
  · exact (filed_of_restore h).exact
  · cases hrestore : s.restore with
    | error e => exact ⟨e, rfl⟩
    | ok r =>
      obtain ⟨p, agents⟩ := r
      obtain ⟨rfl, -, hcheck⟩ := eq_of_restore hrestore
      exact absurd (hs.checkReferences_assemble_iff.1 hcheck) hwrong

/-- The network, in which the second team lists a learner twice that counts one of the two. -/
def miscounted : Snapshot :=
  { network with teams := [⟨⟨4⟩, [⟨1⟩, ⟨0⟩], 1, .empty⟩, ⟨⟨2⟩, [⟨1⟩, ⟨1⟩], 0, .empty⟩] }

theorem restore_recounts_network :
    network.assemble.Keyed ∧
    (network.assemble.checkReferences = .ok () ↔ network.assemble.Exact) ∧
    network.restore = .ok (network.assemble, network.agents) ∧ network.assemble.Exact ∧
    miscounted.Distinct ∧ ¬ miscounted.Exact ∧ ∃ e, miscounted.restore = .error e := by
  have hkeyed : network.assemble.Keyed := keyed_assemble network
  have hrestore : network.restore = .ok (network.assemble, network.agents) := restore_network
  have hdistinct : miscounted.Distinct := ⟨by decide, by decide⟩
  have hwrong : ¬ miscounted.Exact := fun h => by
    exact absurd (h.learner _ List.mem_cons_self) (by decide)
  exact ⟨hkeyed, restore_recounts.1 _ hkeyed, hrestore, restore_recounts.2.1 _ _ _ _ hrestore,
    hdistinct, hwrong, restore_recounts.2.2 _ _ hdistinct hwrong⟩

end Snapshot

end TangledPrograms
