import TangledPrograms.Agent
import TangledPrograms.Proofs.OrderedMap
import TangledPrograms.Proofs.Population.Edits

/-!
# Agents that share a root team

An agent starts from the scores that its team has when it is made, and stores all of its scores on the
team. What the team comes to hold is told from the history of what happened to the agents: their making,
their rewards, and their commits. Histories are written newest first.

A commit also stores what the agent never rewarded, as it was when the agent was made. The team holds
the score of the last agent that rewarded a task and committed, as long as no commit brings back such a
score that has been replaced since.
-/

namespace TangledPrograms

/-- What happens to the agents of a team; they are numbered in the order in which they are made. -/
inductive AgentEvent where
  | made (number : ℕ)
  | rewarded (agent : ℕ) (score : Binary64) (task : Option String)
  | committed (agent : ℕ)
  deriving DecidableEq

namespace AgentEvent

def agentsMade : List AgentEvent → ℕ
  | [] => 0
  | .made _ :: earlier => agentsMade earlier + 1
  | .rewarded .. :: earlier => agentsMade earlier
  | .committed _ :: earlier => agentsMade earlier

def beforeMade (i : ℕ) : List AgentEvent → List AgentEvent
  | [] => []
  | .made _ :: earlier => if agentsMade earlier = i then earlier else beforeMade i earlier
  | .rewarded .. :: earlier => beforeMade i earlier
  | .committed _ :: earlier => beforeMade i earlier

def lastReward (i : ℕ) (task : String) : List AgentEvent → Option Binary64
  | [] => none
  | .made _ :: earlier => lastReward i task earlier
  | .rewarded j score name :: earlier =>
    if j = i ∧ name.getD Agent.defaultTask = task then some score else lastReward i task earlier
  | .committed _ :: earlier => lastReward i task earlier

/-- The score of the last commit by an agent that had itself rewarded the task, or else the score at the
start. -/
def dueScore (start : Option Binary64) (task : String) : List AgentEvent → Option Binary64
  | [] => start
  | .made _ :: earlier => dueScore start task earlier
  | .rewarded .. :: earlier => dueScore start task earlier
  | .committed i :: earlier => (lastReward i task earlier).or (dueScore start task earlier)

end AgentEvent

open AgentEvent

/-- A population and the agents that were made for one of its teams. -/
structure Evaluation where
  population : Population
  agents : List Agent

namespace Evaluation

/-- Nothing comes of an event whose agent was not made, or if the team is not live. -/
def perform (root : TeamId) (e : Evaluation) : AgentEvent → Option Evaluation
  | .made number =>
    (Agent.new e.population root number).toOption.map fun a => { e with agents := e.agents ++ [a] }
  | .rewarded i score task =>
    e.agents[i]?.map fun a => { e with agents := e.agents.set i (a.reward score task) }
  | .committed i =>
    e.agents[i]?.bind fun a =>
      match a.commit e.population with
      | .done _ p => some { e with population := p }
      | .refused .. => none

/-- What is left after a history that starts with the population and no agents. -/
def after (root : TeamId) (p : Population) : List AgentEvent → Option Evaluation
  | [] => some ⟨p, []⟩
  | event :: earlier => (after root p earlier).bind fun e => e.perform root event

def score (root : TeamId) (task : String) (e : Evaluation) : Option Binary64 :=
  (e.population.teams.find? root).bind fun team => team.scores.find? task

/-- The score that the team holds after a history. -/
def scoreAfter (root : TeamId) (p : Population) (task : String) (history : List AgentEvent) :
    Option Binary64 := (after root p history).bind (score root task)

/-- A commit of the agent would bring back no score: those that it found on the team when it was made,
and has not rewarded, are there still. -/
def Timely (root : TeamId) (p : Population) (i : ℕ) (history : List AgentEvent) : Prop :=
  ∀ task found, lastReward i task history = none →
    scoreAfter root p task (beforeMade i history) = some found →
    scoreAfter root p task history = some found

variable {root : TeamId} {p : Population} {history : List AgentEvent} {e : Evaluation}

theorem scoreAfter_eq (h : after root p history = some e) (task : String) :
    scoreAfter root p task history = e.score root task := by
  rw [scoreAfter, h, Option.bind_some]

theorem perform_made {team : Team} (h : e.population.teams.find? root = some team) (number : ℕ) :
    let r := e.population.settings.registers
    e.perform root (.made number) = some { e with
      agents := e.agents ++ [⟨root, number, .zeros r.sharedGroups r.sharedSlots, team.scores⟩] } := by
  rw [perform, Agent.new, Population.team, h]
  rfl

theorem perform_committed {team : Team} {i : ℕ} {a : Agent}
    (h : e.population.teams.find? root = some team) (ha : e.agents[i]? = some a)
    (hroot : a.root = root) : e.perform root (.committed i) =
      some { e with population := e.population.modifyTeam root fun team =>
        { team with scores := team.scores.insertAll a.scores.entries } } := by
  rw [perform, ha, Option.bind_some, Agent.commit, hroot, Population.commitScores, h]

/-- The team is live, and the agents carry what they found on it and their own rewards since. -/
structure Tracks (root : TeamId) (p : Population) (history : List AgentEvent) (e : Evaluation) :
    Prop where
  live : ∃ team, e.population.teams.find? root = some team
  count : e.agents.length = agentsMade history
  unmade : ∀ i task, e.agents.length ≤ i → lastReward i task history = none
  agent : ∀ i a, e.agents[i]? = some a → a.root = root ∧ ∀ task, a.scores.find? task =
    (lastReward i task history).or (scoreAfter root p task (beforeMade i history))

namespace Tracks

variable {e' : Evaluation}

theorem made (h : Tracks root p history e) (hafter : after root p history = some e) {number : ℕ}
    (hperform : e.perform root (.made number) = some e') :
    Tracks root p (.made number :: history) e' := by
  obtain ⟨team, hteam⟩ := h.live
  obtain rfl := Option.some.inj ((perform_made hteam number).symm.trans hperform)
  refine ⟨⟨team, hteam⟩, ?_, fun i task hi => ?_, fun i a ha => ?_⟩
  · rw [List.length_append, List.length_singleton, h.count, agentsMade]
  · rw [List.length_append] at hi
    exact h.unmade i task (by omega)
  · simp only [lastReward, beforeMade]
    rcases Nat.lt_or_ge i e.agents.length with hi | hi
    · rw [List.getElem?_append_left hi] at ha
      rw [if_neg (by rw [← h.count]; omega)]
      exact h.agent i a ha
    · rw [List.getElem?_append_right hi, List.getElem?_singleton] at ha
      split at ha
      · cases ha
        have hnew : agentsMade history = i := by
          rw [← h.count]
          omega
        refine ⟨rfl, fun task => ?_⟩
        rw [h.unmade i task hi, if_pos hnew, scoreAfter_eq hafter, score, hteam]
        rfl
      · cases ha

theorem rewarded (h : Tracks root p history e) {i : ℕ} {score : Binary64} {name : Option String}
    (hperform : e.perform root (.rewarded i score name) = some e') :
    Tracks root p (.rewarded i score name :: history) e' := by
  obtain ⟨a, ha, rfl⟩ := Option.map_eq_some_iff.1 hperform
  have hi := (List.getElem?_eq_some_iff.1 ha).1
  obtain ⟨hroot, hscores⟩ := h.agent i a ha
  refine ⟨h.live, ?_, fun j task hj => ?_, fun j b hb => ?_⟩
  · rw [List.length_set, h.count, agentsMade]
  · rw [List.length_set] at hj
    rw [lastReward, if_neg fun hij => by omega]
    exact h.unmade j task hj
  · rw [beforeMade]
    rw [List.getElem?_set] at hb
    split at hb
    · rename_i hij
      subst hij
      cases hb
      refine ⟨hroot, fun task => ?_⟩
      rw [Agent.reward, OrderedMap.find?_insert, lastReward]
      by_cases htask : name.getD Agent.defaultTask = task
      · simp [htask]
      · rw [if_neg (fun hcompare => htask (Std.LawfulEqCmp.eq_of_compare hcompare).symm),
          if_neg fun hsame => htask hsame.2]
        exact hscores task
    · rename_i hij
      obtain ⟨hroot, hscores⟩ := h.agent j b hb
      refine ⟨hroot, fun task => ?_⟩
      rw [lastReward, if_neg fun hsame => hij hsame.1]
      exact hscores task

theorem committed (h : Tracks root p history e) {i : ℕ}
    (hperform : e.perform root (.committed i) = some e') :
    Tracks root p (.committed i :: history) e' ∧ ∀ task, e'.score root task =
      (lastReward i task history).or
        ((scoreAfter root p task (beforeMade i history)).or (e.score root task)) := by
  obtain ⟨a, ha, -⟩ := Option.bind_eq_some_iff.1 hperform
  obtain ⟨team, hteam⟩ := h.live
  obtain ⟨hroot, hscores⟩ := h.agent i a ha
  obtain rfl := Option.some.inj ((perform_committed hteam ha hroot).symm.trans hperform)
  have hstored := Population.find?_modifyTeam e.population root
    (fun team => { team with scores := team.scores.insertAll a.scores.entries }) root
  rw [hteam, Option.map_some, if_pos rfl] at hstored
  refine ⟨⟨⟨_, hstored⟩, h.count, h.unmade, h.agent⟩, fun task => ?_⟩
  rw [score, hstored, Option.bind_some, OrderedMap.find?_insertAll task _ a.scores.sorted, score,
    hteam, Option.bind_some, ← Option.or_assoc, ← hscores task]
  rfl

end Tracks

/-- What every history leaves is tracked, if the team is live at the start. -/
theorem tracks_after (hlive : ∃ team, p.teams.find? root = some team) :
    ∀ {history : List AgentEvent} {e : Evaluation}, after root p history = some e →
      Tracks root p history e
  | [], _, hafter => by
    cases hafter
    exact ⟨hlive, rfl, fun _ _ _ => rfl, nofun⟩
  | event :: earlier, e', hafter => by
    obtain ⟨e, hearlier, hperform⟩ := Option.bind_eq_some_iff.1 hafter
    have htracks := tracks_after hlive hearlier
    cases event with
    | made number => exact htracks.made hearlier hperform
    | rewarded i score name => exact htracks.rewarded hperform
    | committed i => exact (htracks.committed hperform).1

theorem exists_after_of_suffix {earlier : List AgentEvent} (h : earlier <:+ history)
    (hafter : after root p history = some e) : ∃ e', after root p earlier = some e' := by
  induction history generalizing e with
  | nil => exact ⟨e, List.suffix_nil.1 h ▸ hafter⟩
  | cons event history ih =>
    obtain rfl | h := List.suffix_cons_iff.1 h
    · exact ⟨e, hafter⟩
    · obtain ⟨e', hearlier, -⟩ := Option.bind_eq_some_iff.1 hafter
      exact ih h hearlier

section commits

variable (hlive : ∃ team, p.teams.find? root = some team)
include hlive

/-- A commit stores the agent's own rewards, over what it found when it was made, over what is there. -/
theorem scoreAfter_committed {i : ℕ} (hafter : after root p (.committed i :: history) = some e)
    (task : String) : scoreAfter root p task (.committed i :: history) =
      (lastReward i task history).or
        ((scoreAfter root p task (beforeMade i history)).or (scoreAfter root p task history)) := by
  obtain ⟨e₀, hearlier, hperform⟩ := Option.bind_eq_some_iff.1 hafter
  rw [scoreAfter_eq hafter, scoreAfter_eq hearlier]
  exact ((tracks_after hlive hearlier).committed hperform).2 task

omit hlive in
/-- Only commits change what is stored. -/
theorem scoreAfter_cons {event : AgentEvent} (hevent : ∀ i, event ≠ .committed i)
    (hafter : after root p (event :: history) = some e) (task : String) :
    scoreAfter root p task (event :: history) = scoreAfter root p task history := by
  obtain ⟨e₀, hearlier, hperform⟩ := Option.bind_eq_some_iff.1 hafter
  rw [scoreAfter_eq hafter, scoreAfter_eq hearlier]
  cases event with
  | made number =>
    obtain ⟨a, -, rfl⟩ := Option.map_eq_some_iff.1 hperform
    rfl
  | rewarded i reward name =>
    obtain ⟨a, -, rfl⟩ := Option.map_eq_some_iff.1 hperform
    rfl
  | committed i => exact absurd rfl (hevent i)

/-- From a moment at which the team holds the due scores, an event leads to another one exactly if it is
no untimely commit. -/
theorem due_cons_iff {event : AgentEvent} {start : String → Option Binary64}
    (hafter : after root p (event :: history) = some e)
    (hdue : ∀ task, scoreAfter root p task history = dueScore (start task) task history) :
    (∀ task, scoreAfter root p task (event :: history) =
      dueScore (start task) task (event :: history)) ↔
      ∀ i, event = .committed i → Timely root p i history := by
  cases event with
  | made number =>
    refine iff_of_true (fun task => ?_) fun _ h => by cases h
    rw [scoreAfter_cons (by simp) hafter, hdue, dueScore]
  | rewarded i reward name =>
    refine iff_of_true (fun task => ?_) fun _ h => by cases h
    rw [scoreAfter_cons (by simp) hafter, hdue, dueScore]
  | committed i =>
    simp only [scoreAfter_committed hlive hafter, dueScore, ← hdue]
    constructor
    · rintro h j hj task found hreward hfound
      cases hj
      simpa [hreward, hfound] using (h task).symm
    · intro h task
      cases hreward : lastReward i task history with
      | some own => rfl
      | none =>
        cases hfound : scoreAfter root p task (beforeMade i history) with
        | none => rfl
        | some found => simpa using (h i rfl task found hreward hfound).symm

/-- What a commit stores; and the team always holds, for every task, the score of the last commit by an
agent that had itself rewarded it, exactly if all commits are timely. -/
theorem scores_due_iff (hafter : after root p history = some e) :
    (∀ i earlier, .committed i :: earlier <:+ history → ∀ task,
      scoreAfter root p task (.committed i :: earlier) =
        (lastReward i task earlier).or
          ((scoreAfter root p task (beforeMade i earlier)).or (scoreAfter root p task earlier))) ∧
    ((∀ moment, moment <:+ history → ∀ task,
        scoreAfter root p task moment = dueScore (scoreAfter root p task []) task moment) ↔
      ∀ i earlier, .committed i :: earlier <:+ history → Timely root p i earlier) := by
  constructor
  · intro i earlier h task
    obtain ⟨e', hafter⟩ := exists_after_of_suffix h hafter
    exact scoreAfter_committed hlive hafter task
  · induction history generalizing e with
    | nil =>
      refine iff_of_true (fun moment h task => ?_) fun i earlier h => ?_
      · rw [List.suffix_nil.1 h, dueScore]
      · cases List.suffix_nil.1 h
    | cons event history ih =>
      obtain ⟨e₀, hearlier, -⟩ := Option.bind_eq_some_iff.1 hafter
      simp only [List.suffix_cons_iff, or_imp, forall_and, forall_eq, List.cons.injEq]
      rw [← ih hearlier]
      constructor
      · rintro ⟨hnow, hbefore⟩
        have hdue := hbefore history (List.suffix_refl _)
        exact ⟨fun i earlier => by
          rintro ⟨rfl, rfl⟩
          exact (due_cons_iff hlive hafter hdue).1 hnow i rfl, hbefore⟩
      · rintro ⟨htimely, hbefore⟩
        have hdue := hbefore history (List.suffix_refl _)
        exact ⟨(due_cons_iff hlive hafter hdue).2 fun i hi => htimely i history ⟨hi.symm, rfl⟩, hbefore⟩

end commits

def loneTeam : Population := (Population.addTeam ⟨{}, .ofSettings {}, .fresh, .empty, .empty⟩).2

def sideBySide : List AgentEvent :=
  [.committed 1, .committed 0, .rewarded 1 2.0 none, .rewarded 0 1.0 none, .made 1, .made 0]

theorem sideBySide_due : ∃ e, after ⟨0⟩ loneTeam sideBySide = some e ∧
    e.score ⟨0⟩ "task" = some 2.0 ∧
    ∀ moment, moment <:+ sideBySide → ∀ task, scoreAfter ⟨0⟩ loneTeam task moment =
      dueScore (scoreAfter ⟨0⟩ loneTeam task []) task moment := by
  obtain ⟨e, hafter, hscore⟩ : ∃ e, after ⟨0⟩ loneTeam sideBySide = some e ∧
      e.score ⟨0⟩ "task" = some 2.0 := ⟨_, rfl, rfl⟩
  refine ⟨e, hafter, hscore, ?_⟩
  refine ((scores_due_iff ⟨_, rfl⟩ hafter).2).2 fun i earlier h task found _ hfound => ?_
  have hnothing : scoreAfter ⟨0⟩ loneTeam task (beforeMade i earlier) = none := by
    simp only [sideBySide, List.suffix_cons_iff, List.suffix_nil, List.cons.injEq, reduceCtorEq,
      false_and, or_false, committed.injEq] at h
    obtain ⟨rfl, rfl⟩ | ⟨rfl, rfl⟩ := h <;> rfl
  rw [hnothing] at hfound
  cases hfound

/-- An agent that commits late brings back what it found, although another one that was made before it
has rewarded the task anew and committed since. -/
theorem late_commit_brings_back :
    let history : List AgentEvent :=
      [.committed 1, .committed 0, .rewarded 0 2.0 none, .made 1, .committed 0, .rewarded 0 1.0 none,
        .made 0]
    (Population.new {}).map (fun p => p.addTeam.2) = .ok loneTeam ∧
      (after ⟨0⟩ loneTeam history).isSome ∧ scoreAfter ⟨0⟩ loneTeam "task" history = some 1.0 ∧
      dueScore (scoreAfter ⟨0⟩ loneTeam "task" []) "task" history = some 2.0 ∧
      (1.0 : Binary64) ≠ 2.0 := ⟨rfl, rfl, rfl, rfl, by decide⟩

end Evaluation

end TangledPrograms
