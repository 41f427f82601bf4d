import TangledPrograms.Population.Basic

/-!
# Decisions

To decide on an observation, a team is marked as visited and its eligible members bid in order, each
on the bank that the one before left. A member is eligible if its action is atomic or a team not yet
visited. The first of the highest bids wins, and its action is taken: an atomic action ends the
decision, a team decides in turn. Every step visits a new live team, so a decision ends on any
population.
-/

namespace TangledPrograms

open Machine (Bank)

def Action.eligible (visited : List TeamId) (a : Action) : Bool :=
  match a.target? with
  | none => true
  | some t => t ∉ visited

/-- A learner that has bid, eligible when the given teams have been visited. -/
structure Bidder (visited : List TeamId) where
  learner : Learner
  bid : Float
  eligible : learner.action.eligible visited

/-- The state of a poll: the bank, who has bid, and the first of the highest bidders. -/
structure Poll (visited : List TeamId) where
  bank : Bank
  bidders : List LearnerId
  best : Option (Bidder visited)

namespace Poll

variable {visited : List TeamId}

def add (poll : Poll visited) (input : Observation) (id : LearnerId) (l : Learner)
    (h : l.action.eligible visited) : Poll visited :=
  let (bid, bank) := l.bid input poll.bank
  { bank
    bidders := poll.bidders ++ [id]
    best :=
      match poll.best with
      | none => some ⟨l, bid, h⟩
      | some b => if b.bid < bid then some ⟨l, bid, h⟩ else some b }

/-- Lets the eligible ones of the given learners bid, in order; stops at one that is not live. -/
def run (p : Population) (input : Observation) :
    List LearnerId → Poll visited → Poll visited × Option PopulationError
  | [], poll => (poll, none)
  | id :: rest, poll =>
    match p.learners.find? id with
    | none => (poll, some (.unknownLearner id))
    | some l =>
      if h : l.action.eligible visited then run p input rest (poll.add input id l h)
      else run p input rest poll

end Poll

/-- What a decision comes to, and what it leaves behind. -/
structure Decision where
  result : Except PopulationError AtomicAction
  bank : Bank
  visited : List TeamId
  /-- Who has bid, in order. -/
  bidders : List LearnerId

namespace Population

def unvisited (p : Population) (visited : List TeamId) : List TeamId :=
  p.teams.keys.filter fun t => t ∉ visited

theorem mem_keys_of_find? {p : Population} {t : TeamId} {team : Team}
    (h : p.teams.find? t = some team) : t ∈ p.teams.keys :=
  List.mem_map.2 ⟨(t, team), OrderedMap.find?_eq_some_iff.1 h, rfl⟩

/-- Visiting a live team leaves fewer teams to visit. -/
theorem length_unvisited_cons_lt {p : Population} {visited : List TeamId} {t : TeamId} {team : Team}
    (fresh : t ∉ visited) (h : p.teams.find? t = some team) :
    (p.unvisited (t :: visited)).length < (p.unvisited visited).length := by
  have key : ∀ l : List TeamId, t ∈ l →
      (l.countP fun u => u ∉ t :: visited) < l.countP fun u => u ∉ visited := by
    intro l
    induction l with
    | nil => simp
    | cons u l ih =>
      intro hm
      have le : (l.countP fun u => u ∉ t :: visited) ≤ l.countP fun u => u ∉ visited :=
        List.countP_mono_left fun x _ hx => by
          simp only [List.mem_cons, decide_eq_true_eq, not_or] at hx ⊢
          exact hx.2
      rw [List.countP_cons, List.countP_cons]
      by_cases hu : u = t
      · subst hu
        simp [fresh] at le ⊢
        omega
      · have := ih ((List.mem_cons.1 hm).resolve_left fun e => hu e.symm)
        by_cases hv : u ∈ visited
        · simpa [hv] using this
        · simpa [hu, hv] using this
  simpa only [unvisited, ← List.countP_eq_length_filter] using key _ (mem_keys_of_find? h)

/-- The decision of a team that has not been visited, after the given teams and bidders. -/
def descend (p : Population) (input : Observation) (visited : List TeamId) (bank : Bank)
    (bidders : List LearnerId) (t : TeamId) (_fresh : t ∉ visited) : Decision :=
  match h : p.teams.find? t with
  | none => ⟨.error (.unknownTeam t), bank, t :: visited, bidders⟩
  | some team =>
    match Poll.run p input team.members (⟨bank, bidders, none⟩ : Poll (t :: visited)) with
    | (poll, some e) => ⟨.error e, poll.bank, t :: visited, poll.bidders⟩
    | (poll, none) =>
      match poll.best with
      | none => ⟨.error (.noEligibleLearner t), poll.bank, t :: visited, poll.bidders⟩
      | some winner =>
        match ha : winner.learner.action with
        | .atomic a => ⟨.ok a, poll.bank, t :: visited, poll.bidders⟩
        | .team target =>
          p.descend input (t :: visited) poll.bank poll.bidders target
            (by simpa [Action.eligible, Action.target?, ha] using winner.eligible)
termination_by (p.unvisited visited).length
decreasing_by exact length_unvisited_cons_lt _fresh h

/-- The decision of a team when the given teams have been visited; the team itself may be among
them. -/
def teamAct (p : Population) (t : TeamId) (input : Observation) (bank : Bank)
    (visited : List TeamId) : Decision :=
  p.descend input (visited.filter (· ≠ t)) bank [] t (by simp)

def act (p : Population) (t : TeamId) (input : Observation) (bank : Bank) : Decision :=
  p.teamAct t input bank []

def learnerAct (p : Population) (l : LearnerId) (input : Observation) (bank : Bank)
    (visited : List TeamId) : Decision :=
  match p.learners.find? l with
  | none => ⟨.error (.unknownLearner l), bank, visited, []⟩
  | some learner =>
    match learner.action with
    | .atomic a => ⟨.ok a, bank, visited, []⟩
    | .team t => p.teamAct t input bank visited

def rememberAll (p : Population) (input : Observation) (bidders : List LearnerId) : Population :=
  bidders.foldl
    (fun p l => p.modifyLearner l fun learner => learner.remember input p.settings.stateHistory) p

/-- The decision of a team; if it comes to an action, every learner that bid remembers the
observation, once for each bid. -/
def actRecording (p : Population) (t : TeamId) (input : Observation) (bank : Bank) :
    Decision × Population :=
  let d := p.act t input bank
  match d.result with
  | .ok _ => (d, p.rememberAll input d.bidders)
  | .error _ => (d, p)

end Population

end TangledPrograms
