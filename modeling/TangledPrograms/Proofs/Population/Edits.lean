import TangledPrograms.Population.Creation
import TangledPrograms.Population.Edges
import TangledPrograms.Population.Removal
import TangledPrograms.Proofs.OrderedMap

/-!
# What an edit can do

Each edit either is refused and leaves the population as it was, or it makes one known change, all of
whose preconditions hold. Proofs about edits go by these two cases and need not look at the checks.
-/

namespace TangledPrograms

def Learner.fresh (id : LearnerId) (program : Program) (mode : Mode) (addressing : Addressing)
    (group : Nat) (action : Action) (registers : Nat) : Learner :=
  ⟨id, program, mode, addressing, group, action, 0, registers, []⟩

/-- Remembering changes the memory and nothing else. -/
theorem Learner.remember_eq (l : Learner) (input : Observation) (limit : Nat) :
    ∃ memory, l.remember input limit = { l with memory } := by
  simp only [remember]
  split
  · exact ⟨l.memory, rfl⟩
  · exact ⟨_, rfl⟩

namespace Population

section counts

@[simp] theorem counters_retainTarget (p : Population) (a : Action) :
    (p.retainTarget a).counters = p.counters := by
  simp only [retainTarget]
  cases a.target? <;> rfl

@[simp] theorem counters_releaseTarget (p : Population) (a : Action) :
    (p.releaseTarget a).counters = p.counters := by
  simp only [releaseTarget]
  cases a.target? <;> rfl

@[simp] theorem settings_retainTarget (p : Population) (a : Action) :
    (p.retainTarget a).settings = p.settings := by
  simp only [retainTarget]
  cases a.target? <;> rfl

@[simp] theorem settings_releaseTarget (p : Population) (a : Action) :
    (p.releaseTarget a).settings = p.settings := by
  simp only [releaseTarget]
  cases a.target? <;> rfl

@[simp] theorem learners_retainTarget (p : Population) (a : Action) :
    (p.retainTarget a).learners = p.learners := by
  simp only [retainTarget]
  cases a.target? <;> rfl

@[simp] theorem learners_releaseTarget (p : Population) (a : Action) :
    (p.releaseTarget a).learners = p.learners := by
  simp only [releaseTarget]
  cases a.target? <;> rfl

@[simp] theorem contains_retainTarget (p : Population) (a : Action) (t : TeamId) :
    (p.retainTarget a).teams.contains t = p.teams.contains t := by
  simp only [retainTarget]
  cases a.target? with
  | none => rfl
  | some u => exact OrderedMap.contains_modify ..

@[simp] theorem contains_releaseTarget (p : Population) (a : Action) (t : TeamId) :
    (p.releaseTarget a).teams.contains t = p.teams.contains t := by
  simp only [releaseTarget]
  cases a.target? with
  | none => rfl
  | some u => exact OrderedMap.contains_modify ..

theorem find?_modifyTeam (p : Population) (u : TeamId) (f : Team → Team) (t : TeamId) :
    (p.modifyTeam u f).teams.find? t =
      (p.teams.find? t).map fun team => if t = u then f team else team := by
  rw [modifyTeam, OrderedMap.find?_modify]
  by_cases h : t = u <;> simp [h]

theorem find?_modifyLearner (p : Population) (k : LearnerId) (f : Learner → Learner)
    (l : LearnerId) : (p.modifyLearner k f).learners.find? l =
      (p.learners.find? l).map fun learner => if l = k then f learner else learner := by
  rw [modifyLearner, OrderedMap.find?_modify]
  by_cases h : l = k <;> simp [h]

theorem find?_retainTarget (p : Population) (a : Action) (t : TeamId) :
    (p.retainTarget a).teams.find? t = (p.teams.find? t).map fun team =>
      if a.target? = some t then { team with references := team.references + 1 } else team := by
  simp only [retainTarget]
  cases a.target? with
  | none => simp
  | some u => simpa [retainTeam, eq_comm] using find?_modifyTeam p u _ t

theorem find?_releaseTarget (p : Population) (a : Action) (t : TeamId) :
    (p.releaseTarget a).teams.find? t = (p.teams.find? t).map fun team =>
      if a.target? = some t then { team with references := team.references - 1 } else team := by
  simp only [releaseTarget]
  cases a.target? with
  | none => simp
  | some u => simpa [releaseTeam, eq_comm] using find?_modifyTeam p u _ t

/-- Each release touches one learner, and its count only. -/
theorem foldl_releaseLearner (ls : List LearnerId) (p : Population) :
    ls.foldl releaseLearner p = { p with learners := (ls.foldl releaseLearner p).learners } := by
  induction ls generalizing p with
  | nil => rfl
  | cons l ls ih => exact ih (p.releaseLearner l)

theorem find?_foldl_releaseLearner (ls : List LearnerId) (p : Population) (l : LearnerId) :
    (ls.foldl releaseLearner p).learners.find? l = (p.learners.find? l).map fun learner =>
      { learner with references := learner.references - ls.count l } := by
  induction ls generalizing p with
  | nil => simp
  | cons k ls ih =>
    rw [List.foldl_cons, ih, releaseLearner, find?_modifyLearner]
    cases p.learners.find? l with
    | none => rfl
    | some learner =>
      by_cases h : l = k
      · subst h
        simp [Nat.sub_sub, Nat.add_comm]
      · have hne : k ≠ l := fun e => h e.symm
        simp [h, hne]

end counts

/-- The target of an action, if it has one, is live. -/
def Targets (p : Population) (a : Action) : Prop :=
  ∀ t, a.target? = some t → p.teams.contains t = true

/-- The target of an action, if it has one, is live and counts an edge. -/
def Counts (p : Population) (a : Action) : Prop :=
  ∀ t, a.target? = some t → ∃ team, p.teams.find? t = some team ∧ team.references ≠ 0

variable (p : Population)

private theorem obstacle_eq_none_iff (a : Action) :
    (a.target?.bind fun t => if p.teams.contains t then none else some t) = none ↔ p.Targets a := by
  simp only [Targets]
  cases a.target? <;> simp

theorem addLearnerWith_cases (program : Program) (action : Action) (addressing : Addressing)
    (group : Nat) :
    (∃ e, p.addLearnerWith program action addressing group = .refused e p) ∨
    p.Targets action ∧ p.addLearnerWith program action addressing group =
      .done ⟨p.counters.nextLearner⟩ { p.retainTarget action with
        counters := p.counters.takeLearner.2
        learners := p.learners.insert ⟨p.counters.nextLearner⟩
          (.fresh ⟨p.counters.nextLearner⟩ program .scalar addressing group action
            p.settings.registers.count) } := by
  have htarget := p.obstacle_eq_none_iff action
  simp only [addLearnerWith]
  cases ho : action.target?.bind fun t => if p.teams.contains t then none else some t with
  | some t => exact .inl ⟨_, rfl⟩
  | none =>
    refine .inr ⟨htarget.1 ho, ?_⟩
    simp only [retainTarget]
    cases action.target? <;> rfl

theorem addLearnerLike_cases (program : Program) (action : Action) (addressing : Addressing)
    (group : Nat) (f : Learner → Learner) :
    (∃ e, p.addLearnerLike program action addressing group f = .refused e p) ∨
    p.Targets action ∧ p.addLearnerLike program action addressing group f =
      .done ⟨p.counters.nextLearner⟩ { p.retainTarget action with
        counters := p.counters.takeLearner.2
        learners := p.learners.insert ⟨p.counters.nextLearner⟩
          (f (.fresh ⟨p.counters.nextLearner⟩ program .scalar addressing group action
            p.settings.registers.count)) } := by
  simp only [addLearnerLike]
  obtain ⟨e, hadd⟩ | ⟨hlive, hadd⟩ := p.addLearnerWith_cases program action addressing group
  · rw [hadd]
    exact .inl ⟨e, rfl⟩
  · rw [hadd]
    refine .inr ⟨hlive, ?_⟩
    simp only [modifyLearner, OrderedMap.modify_insert]

theorem join_cases (t : TeamId) (l : LearnerId) :
    (∃ e, p.join t l = .refused e p) ∨
    ∃ team learner, p.teams.find? t = some team ∧ p.learners.find? l = some learner ∧
      l ∉ team.members ∧ p.join t l = .done () ((p.modifyTeam t fun team =>
        { team with members := team.members ++ [l] }).retainLearner l) := by
  simp only [join]
  cases hl : p.learners.find? l with
  | none => exact .inl ⟨_, rfl⟩
  | some learner =>
    cases ht : p.teams.find? t with
    | none => exact .inl ⟨_, rfl⟩
    | some team =>
      by_cases hmem : l ∈ team.members
      · exact .inl ⟨_, if_pos hmem⟩
      · exact .inr ⟨team, learner, rfl, rfl, hmem, if_neg hmem⟩

theorem leave_cases (t : TeamId) (l : LearnerId) :
    (∃ e, p.leave t l = .refused e p) ∨
    ∃ team learner, p.teams.find? t = some team ∧ p.learners.find? l = some learner ∧
      l ∈ team.members ∧ learner.references ≠ 0 ∧ p.leave t l = .done () ((p.modifyTeam t fun team =>
        { team with members := team.members.erase l }).releaseLearner l) := by
  simp only [leave]
  cases hl : p.learners.find? l with
  | none => exact .inl ⟨_, rfl⟩
  | some learner =>
    cases ht : p.teams.find? t with
    | none => exact .inl ⟨_, rfl⟩
    | some team =>
      dsimp only
      by_cases hmem : l ∈ team.members
      · rw [if_neg (not_not.2 hmem)]
        by_cases hzero : learner.references = 0
        · exact .inl ⟨_, if_pos hzero⟩
        · exact .inr ⟨team, learner, rfl, rfl, hmem, hzero, if_neg hzero⟩
      · exact .inl ⟨_, if_pos hmem⟩

private theorem rewireObstacle?_eq_none_iff (old new : Action) :
    p.rewireObstacle? old new = none ↔ p.Targets new ∧ p.Counts old := by
  rw [← p.obstacle_eq_none_iff new]
  simp only [rewireObstacle?, Counts]
  cases new.target?.bind fun t => if p.teams.contains t then none else some t with
  | some t => simp
  | none =>
    cases old.target? with
    | none => simp
    | some t => cases ht : p.teams.find? t <;> simp [ht]

theorem rewire_of_counts {l : LearnerId} {learner : Learner} {action : Action}
    (hl : p.learners.find? l = some learner) (hnew : p.Targets action)
    (hold : p.Counts learner.action) :
    p.rewire l action = .done () (((p.releaseTarget learner.action).retainTarget action).modifyLearner
      l fun learner => { learner with action }) := by
  simp only [rewire, hl, (p.rewireObstacle?_eq_none_iff learner.action action).2 ⟨hnew, hold⟩]

theorem rewire_cases (l : LearnerId) (action : Action) :
    (∃ e, p.rewire l action = .refused e p) ∨
    ∃ learner, p.learners.find? l = some learner ∧ p.Targets action ∧ p.Counts learner.action ∧
      p.rewire l action = .done () (((p.releaseTarget learner.action).retainTarget
        action).modifyLearner l fun learner => { learner with action }) := by
  cases hl : p.learners.find? l with
  | none => exact .inl ⟨_, by simp only [rewire, hl]; rfl⟩
  | some learner =>
    cases ho : p.rewireObstacle? learner.action action with
    | some e => exact .inl ⟨e, by simp only [rewire, hl, ho]⟩
    | none =>
      obtain ⟨hnew, hold⟩ := (p.rewireObstacle?_eq_none_iff _ _).1 ho
      exact .inr ⟨learner, rfl, hnew, hold, p.rewire_of_counts hl hnew hold⟩

variable {p} in
theorem eq_of_rewire_refused {q : Population} {l : LearnerId} {action : Action} {e : PopulationError}
    (h : p.rewire l action = .refused e q) : q = p := by
  obtain ⟨e', he⟩ | ⟨_, _, _, _, he⟩ := p.rewire_cases l action
  · rw [he] at h
    cases h
    rfl
  · rw [he] at h
    cases h

variable {p} in
theorem exists_of_rewire_done {q : Population} {l : LearnerId} {action : Action}
    (h : p.rewire l action = .done () q) :
    ∃ learner, p.learners.find? l = some learner ∧ p.Targets action ∧ p.Counts learner.action ∧
      q = ((p.releaseTarget learner.action).retainTarget action).modifyLearner l fun learner =>
        { learner with action } := by
  obtain ⟨e, he⟩ | ⟨learner, hl, hnew, hold, he⟩ := p.rewire_cases l action
  · rw [he] at h
    cases h
  · rw [he] at h
    cases h
    exact ⟨learner, hl, hnew, hold, rfl⟩

variable {p} in
theorem rewire_frame {q : Population} {l : LearnerId} {action : Action}
    (h : p.rewire l action = .done () q) :
    q.settings = p.settings ∧ ∀ k, q.learners.contains k = p.learners.contains k := by
  obtain ⟨learner, -, -, -, rfl⟩ := exists_of_rewire_done h
  constructor
  · simp [modifyLearner]
  · intro k
    simp [modifyLearner]

theorem commitScores_cases (t : TeamId) (scores : Scores) :
    (∃ e, p.commitScores t scores = .refused e p) ∨
    p.commitScores t scores = .done () (p.modifyTeam t fun team =>
      { team with scores := team.scores.insertAll scores.entries }) := by
  simp only [commitScores]
  cases p.teams.find? t with
  | none => exact .inl ⟨_, rfl⟩
  | some team => exact .inr rfl

private theorem memberObstacle?_eq_none_iff (ls : List LearnerId) :
    p.memberObstacle? ls = none ↔
      ∀ l ∈ ls, ∃ learner, p.learners.find? l = some learner ∧ learner.references ≠ 0 := by
  induction ls with
  | nil => simp [memberObstacle?]
  | cons l ls ih =>
    rw [List.forall_mem_cons, ← ih]
    simp only [memberObstacle?]
    cases p.learners.find? l with
    | none => simp
    | some learner => by_cases hzero : learner.references = 0 <;> simp [hzero]

theorem removeTeam_of_counts {t : TeamId} {team : Team} (ht : p.teams.find? t = some team)
    (hzero : team.references = 0)
    (hmembers : ∀ l ∈ team.members, ∃ learner, p.learners.find? l = some learner ∧
      learner.references ≠ 0) :
    p.removeTeam t = .done team
      (team.members.foldl releaseLearner { p with teams := p.teams.erase t }) := by
  have ho := (p.memberObstacle?_eq_none_iff team.members).2 hmembers
  simp only [removeTeam, ht, hzero, ho, ne_eq, not_true_eq_false, if_false]

theorem removeTeam_cases (t : TeamId) :
    (∃ e, p.removeTeam t = .refused e p) ∨
    ∃ team, p.teams.find? t = some team ∧ team.references = 0 ∧
      (∀ l ∈ team.members, ∃ learner, p.learners.find? l = some learner ∧ learner.references ≠ 0) ∧
      p.removeTeam t = .done team
        (team.members.foldl releaseLearner { p with teams := p.teams.erase t }) := by
  cases ht : p.teams.find? t with
  | none => exact .inl ⟨_, by simp only [removeTeam, ht]; rfl⟩
  | some team =>
    by_cases hzero : team.references = 0
    · cases ho : p.memberObstacle? team.members with
      | some e => exact .inl ⟨e, by simp [removeTeam, ht, hzero, ho]⟩
      | none =>
        have hmembers := (p.memberObstacle?_eq_none_iff _).1 ho
        exact .inr ⟨team, rfl, hzero, hmembers, p.removeTeam_of_counts ht hzero hmembers⟩
    · exact .inl ⟨_, by simp only [removeTeam, ht]; exact if_pos hzero⟩

theorem removeLearner_of_counts {l : LearnerId} {learner : Learner}
    (hl : p.learners.find? l = some learner) (hzero : learner.references = 0)
    (hcounts : p.Counts learner.action) :
    p.removeLearner l = .done learner
      (releaseTarget { p with learners := p.learners.erase l } learner.action) := by
  simp only [removeLearner, hl, hzero, ne_eq, not_true_eq_false, if_false, releaseTarget]
  cases ha : learner.action.target? with
  | none => rfl
  | some t =>
    obtain ⟨team, ht, hcount⟩ := hcounts t ha
    simp only [ht, if_neg hcount]

theorem removeLearner_cases (l : LearnerId) :
    (∃ e, p.removeLearner l = .refused e p) ∨
    ∃ learner, p.learners.find? l = some learner ∧ learner.references = 0 ∧ p.Counts learner.action ∧
      p.removeLearner l = .done learner
        (releaseTarget { p with learners := p.learners.erase l } learner.action) := by
  cases hl : p.learners.find? l with
  | none => exact .inl ⟨_, by simp only [removeLearner, hl]; rfl⟩
  | some learner =>
    by_cases hzero : learner.references = 0
    · cases ha : learner.action.target? with
      | none =>
        have hcounts : p.Counts learner.action := by simp [Counts, ha]
        exact .inr ⟨learner, rfl, hzero, hcounts, p.removeLearner_of_counts hl hzero hcounts⟩
      | some t =>
        cases ht : p.teams.find? t with
        | none => exact .inl ⟨.unknownTeam t, by simp [removeLearner, hl, hzero, ha, ht]⟩
        | some team =>
          by_cases hcount : team.references = 0
          · exact .inl ⟨.referenceUnderflow (.team t), by
              simp [removeLearner, hl, hzero, ha, ht, hcount]⟩
          · have hcounts : p.Counts learner.action := by simp [Counts, ha, ht, hcount]
            exact .inr ⟨learner, rfl, hzero, hcounts, p.removeLearner_of_counts hl hzero hcounts⟩
    · exact .inl ⟨_, by simp only [removeLearner, hl]; exact if_pos hzero⟩

end Population

end TangledPrograms
