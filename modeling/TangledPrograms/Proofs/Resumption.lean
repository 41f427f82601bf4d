import TangledPrograms.Proofs.Evaluation

/-!
# Agents that are saved and resumed

Between the saving of an agent and its resumption other agents are rewarded and commit. A resumed agent
takes up the scores that its team has by then, and those of its record stand over them. So it is done
with a task exactly if it was before, or if the team had a score for it already, or if another agent of
the team has brought one since; and it has its own scores, and no more, exactly if it had been done with
all of these tasks.
-/

namespace TangledPrograms

namespace Evaluation

variable {root : TeamId} {e e' : Evaluation} {event : AgentEvent} {history : List AgentEvent}
  {task : String}

/-- What is left after a history, written newest first, that starts from here, where agents of any
teams may have been made. -/
def onward (root : TeamId) (e : Evaluation) : List AgentEvent → Option Evaluation
  | [] => some e
  | event :: earlier => (onward root e earlier).bind fun e => e.perform root event

/-- In the course of a history an agent of the team has stored a score for the task. -/
def Brought (root : TeamId) (e : Evaluation) (task : String) (history : List AgentEvent) : Prop :=
  ∃ i earlier e' b, .committed i :: earlier <:+ history ∧ onward root e earlier = some e' ∧
    e'.agents[i]? = some b ∧ b.root = root ∧ b.taskDone task = true

theorem not_brought_nil : ¬ Brought root e task [] := by
  rintro ⟨i, earlier, _, _, hsuffix, -⟩
  cases List.suffix_nil.1 hsuffix

theorem brought_cons_iff : Brought root e task (event :: history) ↔
    (∃ i e' b, event = .committed i ∧ onward root e history = some e' ∧ e'.agents[i]? = some b ∧
      b.root = root ∧ b.taskDone task = true) ∨ Brought root e task history := by
  constructor
  · rintro ⟨i, earlier, e', b, hsuffix, h⟩
    obtain heq | hsuffix := List.suffix_cons_iff.1 hsuffix
    · cases heq
      exact .inl ⟨i, e', b, rfl, h⟩
    · exact .inr ⟨i, earlier, e', b, hsuffix, h⟩
  · rintro (⟨i, e', b, rfl, h⟩ | ⟨i, earlier, e', b, hsuffix, h⟩)
    · exact ⟨i, history, e', b, List.suffix_refl _, h⟩
    · exact ⟨i, earlier, e', b, hsuffix.trans (List.suffix_cons _ _), h⟩

theorem population_perform (hevent : ∀ i, event ≠ .committed i)
    (h : e.perform root event = some e') : e'.population = e.population := by
  cases event with
  | made number =>
    obtain ⟨a, -, rfl⟩ := Option.map_eq_some_iff.1 h
    rfl
  | rewarded i score name =>
    obtain ⟨a, -, rfl⟩ := Option.map_eq_some_iff.1 h
    rfl
  | committed i => exact absurd rfl (hevent i)

/-- A commit stores the agent's scores on the agent's own team, whichever that is. -/
theorem perform_committed_cases {i : ℕ} (h : e.perform root (.committed i) = some e') :
    ∃ b, e.agents[i]? = some b ∧ e'.population = e.population.modifyTeam b.root fun team =>
      { team with scores := team.scores.insertAll b.scores.entries } := by
  obtain ⟨b, hb, hcommit⟩ := Option.bind_eq_some_iff.1 h
  obtain ⟨error, hrefused⟩ | hdone := e.population.commitScores_cases b.root b.scores
  · rw [Agent.commit, hrefused] at hcommit
    cases hcommit
  · rw [Agent.commit, hdone] at hcommit
    cases hcommit
    exact ⟨b, hb, rfl⟩

theorem live_perform (h : e.perform root event = some e')
    (hlive : ∃ team, e.population.teams.find? root = some team) :
    ∃ team, e'.population.teams.find? root = some team := by
  by_cases hevent : ∃ i, event = .committed i
  · obtain ⟨i, rfl⟩ := hevent
    obtain ⟨b, -, hpopulation⟩ := perform_committed_cases h
    obtain ⟨team, hteam⟩ := hlive
    exact ⟨_, by rw [hpopulation, Population.find?_modifyTeam, hteam, Option.map_some]⟩
  · rw [population_perform (not_exists.1 hevent) h]
    exact hlive

theorem score_committed {i : ℕ} (h : e.perform root (.committed i) = some e')
    (hlive : ∃ team, e.population.teams.find? root = some team) :
    ∃ b, e.agents[i]? = some b ∧ ∀ task, e'.score root task =
      if b.root = root then (b.scores.find? task).or (e.score root task) else e.score root task := by
  obtain ⟨b, hb, hpopulation⟩ := perform_committed_cases h
  obtain ⟨team, hteam⟩ := hlive
  refine ⟨b, hb, fun task => ?_⟩
  simp only [score, hpopulation, Population.find?_modifyTeam, hteam, Option.map_some,
    Option.bind_some]
  by_cases hroot : b.root = root
  · rw [if_pos hroot.symm, if_pos hroot]
    exact OrderedMap.find?_insertAll task _ b.scores.sorted
  · rw [if_neg (Ne.symm hroot), if_neg hroot]

theorem live_onward (hlive : ∃ team, e.population.teams.find? root = some team) :
    ∀ {history : List AgentEvent} {e' : Evaluation}, onward root e history = some e' →
      ∃ team, e'.population.teams.find? root = some team
  | [], _, h => by
    cases h
    exact hlive
  | _ :: _, _, h => by
    obtain ⟨_, hearlier, hperform⟩ := Option.bind_eq_some_iff.1 h
    exact live_perform hperform (live_onward hlive hearlier)

/-- After a history the team has a score for the tasks it had one for before, and for those that its
agents have brought. -/
theorem isSome_score_onward (hlive : ∃ team, e.population.teams.find? root = some team)
    (task : String) : ∀ {history : List AgentEvent} {e' : Evaluation},
      onward root e history = some e' →
        ((e'.score root task).isSome = true ↔
          (e.score root task).isSome = true ∨ Brought root e task history)
  | [], _, h => by
    cases h
    exact (or_iff_left not_brought_nil).symm
  | event :: earlier, e', h => by
    obtain ⟨e₁, hearlier, hperform⟩ := Option.bind_eq_some_iff.1 h
    have ih := isSome_score_onward hlive task hearlier
    rw [brought_cons_iff]
    by_cases hevent : ∃ i, event = .committed i
    · obtain ⟨i, rfl⟩ := hevent
      obtain ⟨b, hb, hscore⟩ := score_committed hperform (live_onward hlive hearlier)
      have hnow : (∃ j e₂ c, AgentEvent.committed i = .committed j ∧
          onward root e earlier = some e₂ ∧ e₂.agents[j]? = some c ∧ c.root = root ∧
            c.taskDone task = true) ↔ b.root = root ∧ b.taskDone task = true := by
        constructor
        · rintro ⟨j, e₂, c, heq, he₂, hc, h⟩
          cases heq
          obtain rfl := Option.some.inj (hearlier.symm.trans he₂)
          obtain rfl := Option.some.inj (hb.symm.trans hc)
          exact h
        · exact fun h => ⟨i, e₁, b, rfl, hearlier, hb, h⟩
      rw [hnow, hscore, or_left_comm, ← ih]
      by_cases hroot : b.root = root <;> simp [hroot, Agent.taskDone, OrderedMap.contains]
    · rw [score, population_perform (not_exists.1 hevent) hperform]
      refine ih.trans (or_congr_right (or_iff_right ?_).symm)
      rintro ⟨i, _, _, rfl, -⟩
      exact hevent ⟨i, rfl⟩

end Evaluation

open Evaluation

theorem Agent.ofRecord_record {p : Population} {a : Agent} {team : Team}
    (h : p.teams.find? a.root = some team) : ∃ b, Agent.ofRecord p a.record = .ok b ∧
      b.root = a.root ∧ b.number = a.number ∧
      ∀ task, b.scores.find? task = (a.scores.find? task).or (team.scores.find? task) := by
  rw [ofRecord, new, Population.team, record, h]
  exact ⟨_, rfl, rfl, rfl, fun task => OrderedMap.find?_insertAll task _ a.scores.sorted⟩

/-- A resumed agent has the root and the number of the one that was saved, and its scores over those of
the team. It has exactly the scores of the one that was saved, and is done with exactly the same tasks,
if and only if that one was done with every task for which the team had a score or was brought one by
another agent since. -/
theorem resumed_scores_iff {a : Agent} {e e' : Evaluation} {history : List AgentEvent}
    (hlive : ∃ team, e.population.teams.find? a.root = some team)
    (hlater : onward a.root e history = some e') :
    ∃ b, Agent.ofRecord e'.population a.record = .ok b ∧ b.root = a.root ∧ b.number = a.number ∧
      (∀ task, b.scores.find? task = (a.scores.find? task).or (e'.score a.root task)) ∧
      (∀ task, b.taskDone task = true ↔ a.taskDone task = true ∨
        (e.score a.root task).isSome = true ∨ Brought a.root e task history) ∧
      ((∀ task, b.taskDone task = a.taskDone task) ↔ b.scores = a.scores) ∧
      (b.scores = a.scores ↔ ∀ task,
        (e.score a.root task).isSome = true ∨ Brought a.root e task history →
          a.taskDone task = true) := by
  obtain ⟨team, hteam⟩ := live_onward hlive hlater
  obtain ⟨b, hb, hroot, hnumber, hscores⟩ := Agent.ofRecord_record hteam
  have hscore : ∀ task, e'.score a.root task = team.scores.find? task := fun task => by
    rw [score, hteam, Option.bind_some]
  simp only [← hscore] at hscores
  have hdone : ∀ task, b.taskDone task = true ↔ a.taskDone task = true ∨
      (e.score a.root task).isSome = true ∨ Brought a.root e task history := fun task => by
    rw [Agent.taskDone, OrderedMap.contains, hscores, Option.isSome_or, Bool.or_eq_true,
      isSome_score_onward hlive task hlater]
    rfl
  have hsame : (∀ task, b.taskDone task = a.taskDone task) ↔ b.scores = a.scores := by
    constructor
    · refine fun h => OrderedMap.ext_find? fun task => ?_
      rw [hscores]
      cases hown : a.scores.find? task with
      | some own => rfl
      | none =>
        have hnone := h task
        rw [Agent.taskDone, Agent.taskDone, OrderedMap.contains, OrderedMap.contains, hscores, hown]
          at hnone
        simpa using hnone
    · intro h task
      rw [Agent.taskDone, h, Agent.taskDone]
  refine ⟨b, hb, hroot, hnumber, hscores, hdone, hsame, hsame.symm.trans ?_⟩
  refine forall_congr' fun task => ?_
  rw [Bool.eq_iff_iff, hdone, or_iff_left_iff_imp]

/-- An agent of the team of `Evaluation.loneTeam`, as it is made. -/
def newcomer (number : ℕ) : Agent := ⟨⟨0⟩, number, .zeros 8 8, .empty⟩

/-- An agent that was rewarded keeps its score, although another one has stored a score for the same
task since. -/
theorem newcomer_resumed : ∃ e', onward ⟨0⟩ ⟨loneTeam, [newcomer 1]⟩
      [.committed 0, .rewarded 0 2.0 none] = some e' ∧ e'.score ⟨0⟩ "task" = some 2.0 ∧
    ∃ b, Agent.ofRecord e'.population ((newcomer 0).reward 1.0 none).record = .ok b ∧
      b.root = ⟨0⟩ ∧ b.number = 0 ∧ b.scores = ((newcomer 0).reward 1.0 none).scores := by
  have hlater : onward ⟨0⟩ ⟨loneTeam, [newcomer 1]⟩ [.committed 0, .rewarded 0 2.0 none] =
      some ⟨(((newcomer 1).reward 2.0 none).commit loneTeam).population,
        [(newcomer 1).reward 2.0 none]⟩ := rfl
  obtain ⟨b, hb, hroot, hnumber, -⟩ :=
    resumed_scores_iff (a := (newcomer 0).reward 1.0 none) ⟨_, rfl⟩ hlater
  refine ⟨_, hlater, rfl, b, hb, hroot, hnumber, ?_⟩
  cases hb
  rfl

/-- A resumed agent is done with a task that another one has brought in the meantime. -/
theorem resumed_is_done : Agent.new loneTeam ⟨0⟩ 0 = .ok (newcomer 0) ∧
    Agent.new loneTeam ⟨0⟩ 1 = .ok (newcomer 1) ∧
    ∃ e', onward ⟨0⟩ ⟨loneTeam, [newcomer 1]⟩ [.committed 0, .rewarded 0 1.0 none] = some e' ∧
      ∃ b, Agent.ofRecord e'.population (newcomer 0).record = .ok b ∧
        (newcomer 0).taskDone "task" = false ∧ b.taskDone "task" = true ∧
        b.scores ≠ (newcomer 0).scores :=
  ⟨rfl, rfl, _, rfl, _, rfl, rfl, rfl, by decide⟩

end TangledPrograms
