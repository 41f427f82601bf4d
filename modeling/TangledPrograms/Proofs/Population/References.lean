import TangledPrograms.Population.References
import TangledPrograms.Proofs.OrderedMap

/-!
# What the recount accepts

The recount accepts a population exactly if every edge leads to a live node and every node carries
the number of edges that lead to it.
-/

namespace TangledPrograms.Population

def edgesTo (p : Population) (t : TeamId) : Nat :=
  p.learners.values.countP fun l => l.action.target? = some t

def listings (p : Population) (l : LearnerId) : Nat :=
  p.teams.values.countP fun t => t.members.contains l

theorem mem_actionTargets_iff {p : Population} {t : TeamId} : t ∈ p.actionTargets ↔
    ∃ l learner, p.learners.find? l = some learner ∧ learner.action.target? = some t := by
  simp only [actionTargets, List.mem_filterMap, OrderedMap.mem_values_iff]
  constructor
  · rintro ⟨learner, ⟨l, hl⟩, ht⟩
    exact ⟨l, learner, hl, ht⟩
  · rintro ⟨l, learner, hl, ht⟩
    exact ⟨learner, ⟨l, hl⟩, ht⟩

theorem mem_memberships_iff {p : Population} {l : LearnerId} : l ∈ p.memberships ↔
    ∃ t team, p.teams.find? t = some team ∧ l ∈ team.members := by
  simp only [memberships, List.mem_flatMap, OrderedMap.mem_values_iff]
  constructor
  · rintro ⟨team, ⟨t, ht⟩, hl⟩
    exact ⟨t, team, ht, hl⟩
  · rintro ⟨t, team, ht, hl⟩
    exact ⟨team, ⟨t, ht⟩, hl⟩

theorem count_actionTargets (p : Population) (t : TeamId) :
    p.actionTargets.count t = p.edgesTo t := by
  simp only [actionTargets, edgesTo]
  induction p.learners.values with
  | nil => rfl
  | cons l rest ih =>
    rw [List.countP_cons, ← ih, List.filterMap_cons]
    cases l.action.target? with
    | none => simp
    | some u => simp [List.count_cons]

theorem count_memberships (p : Population) (h : ∀ t ∈ p.teams.values, t.members.Nodup)
    (l : LearnerId) : p.memberships.count l = p.listings l := by
  simp only [memberships, listings]
  revert h
  induction p.teams.values with
  | nil => simp
  | cons t rest ih =>
    intro h
    rw [List.flatMap_cons, List.count_append, List.countP_cons,
      ih fun u hu => h u (List.mem_cons_of_mem _ hu), (h t List.mem_cons_self).count]
    simp only [List.contains_iff_mem]
    omega

private theorem mismatch?_eq_none_iff {node : Node} {recorded actual : Nat} :
    mismatch? node recorded actual = none ↔ actual = recorded := by
  simp only [mismatch?]
  split <;> simp_all

private theorem referenceFault?_eq_none_iff (p : Population) :
    p.referenceFault? = none ↔
      (∀ t ∈ p.actionTargets, p.teams.contains t = true) ∧
      (∀ l ∈ p.memberships, p.learners.contains l = true) ∧
      (∀ t ∈ p.teams.values, p.actionTargets.count t.id = t.references) ∧
      ∀ l ∈ p.learners.values, p.memberships.count l.id = l.references := by
  simp [referenceFault?, mismatch?_eq_none_iff, OrderedMap.getD_tally]

theorem checkReferences_eq_ok_iff (p : Population) :
    p.checkReferences = .ok () ↔
      (∀ t ∈ p.actionTargets, p.teams.contains t = true) ∧
      (∀ l ∈ p.memberships, p.learners.contains l = true) ∧
      (∀ t ∈ p.teams.values, p.actionTargets.count t.id = t.references) ∧
      ∀ l ∈ p.learners.values, p.memberships.count l.id = l.references := by
  rw [← referenceFault?_eq_none_iff, checkReferences]
  cases p.referenceFault? <;> simp

end TangledPrograms.Population
