import TangledPrograms.Proofs.Decision.Bidding
import TangledPrograms.Proofs.Population.References

/-!
# Decisions as chains of teams

A decision is told twice. As a walk, one turn after the other, it needs no more turns than there are
live teams and one more, on any population. As a chain, every team of it polls its eligible members,
the winner leads to the next team, and the last one's winner or the lack of one is the result. The code
decides by such a chain unless it comes upon a node that is not live, which the recount rules out.
-/

namespace TangledPrograms

open Machine (Bank)

/-- A turn of a decision: whose it is, and what is behind it. -/
structure Turn where
  team : TeamId
  visited : List TeamId
  bank : Bank
  bidders : List LearnerId

namespace Turn

/-- What a turn leads to, the decision or another turn, when the given teams count as visited. -/
def nextAmong (p : Population) (input : Observation) (s : Turn) (visited : List TeamId) :
    Decision ⊕ Turn :=
  match p.teams.find? s.team with
  | none => .inl ⟨.error (.unknownTeam s.team), s.bank, visited, s.bidders⟩
  | some team =>
    match Poll.run p input team.members (⟨s.bank, s.bidders, none⟩ : Poll visited) with
    | (poll, some e) => .inl ⟨.error e, poll.bank, visited, poll.bidders⟩
    | (poll, none) =>
      match poll.best with
      | none => .inl ⟨.error (.noEligibleLearner s.team), poll.bank, visited, poll.bidders⟩
      | some winner =>
        match winner.learner.action with
        | .atomic a => .inl ⟨.ok a, poll.bank, visited, poll.bidders⟩
        | .team target => .inr ⟨target, visited, poll.bank, poll.bidders⟩

/-- What a turn leads to; the team itself counts as visited. -/
def next (p : Population) (input : Observation) (s : Turn) : Decision ⊕ Turn :=
  s.nextAmong p input (s.team :: s.visited.filter (· ≠ s.team))

/-- The decision that a turn leads to, if it needs no more than so many turns. -/
def walk (p : Population) (input : Observation) : Nat → Turn → Option Decision
  | 0, _ => none
  | turns + 1, s =>
    match s.next p input with
    | .inl d => some d
    | .inr s' => walk p input turns s'

end Turn

namespace Population

private theorem filter_ne_of_not_mem {visited : List TeamId} {t : TeamId} (h : t ∉ visited) :
    visited.filter (· ≠ t) = visited :=
  List.filter_eq_self.2 fun u hu => by
    have : u ≠ t := fun e => h (e ▸ hu)
    simpa using this

/-- A turn of an unvisited team either is the decision or passes it on to another unvisited team. -/
private theorem descend_eq_next (p : Population) (input : Observation) (visited : List TeamId)
    (bank : Bank) (bidders : List LearnerId) (t : TeamId) (fresh : t ∉ visited) :
    (Turn.next p input ⟨t, visited, bank, bidders⟩ =
      .inl (p.descend input visited bank bidders t fresh)) ∨
    ∃ team u bank' bidders', ∃ fresh' : u ∉ t :: visited, p.teams.find? t = some team ∧
      Turn.next p input ⟨t, visited, bank, bidders⟩ = .inr ⟨u, t :: visited, bank', bidders'⟩ ∧
      p.descend input visited bank bidders t fresh =
        p.descend input (t :: visited) bank' bidders' u fresh' := by
  have hnext : Turn.next p input ⟨t, visited, bank, bidders⟩ =
      Turn.nextAmong p input ⟨t, visited, bank, bidders⟩ (t :: visited) :=
    congrArg (fun l => Turn.nextAmong p input _ (t :: l)) (filter_ne_of_not_mem fresh)
  rw [hnext]
  simp only [Turn.nextAmong]
  fun_cases p.descend input visited bank bidders t fresh with
  | case1 hteam =>
    left
    simp only [hteam]
  | case2 team hteam poll e hpoll =>
    left
    simp only [hteam, hpoll]
  | case3 team hteam poll hpoll hbest =>
    left
    simp only [hteam, hpoll, hbest]
  | case4 team hteam poll hpoll winner hbest a ha =>
    left
    simp only [hteam, hpoll, hbest, ha]
  | case5 team hteam poll hpoll winner hbest u ha =>
    right
    have fresh' : u ∉ t :: visited := by
      simpa [Action.eligible, Action.target?, ha] using winner.eligible
    simp only [hteam, hpoll, hbest, ha]
    exact ⟨team, u, poll.bank, poll.bidders, fresh', rfl, rfl, rfl⟩

private theorem walk_descend (p : Population) (input : Observation) :
    ∀ (turns : Nat) (visited : List TeamId) (bank : Bank) (bidders : List LearnerId) (t : TeamId)
      (fresh : t ∉ visited), (p.unvisited visited).length < turns →
      Turn.walk p input turns ⟨t, visited, bank, bidders⟩ =
        some (p.descend input visited bank bidders t fresh)
  | 0, _, _, _, _, _, h => absurd h (Nat.not_lt_zero _)
  | turns + 1, visited, bank, bidders, t, fresh, h => by
    simp only [Turn.walk]
    rcases p.descend_eq_next input visited bank bidders t fresh with hend |
      ⟨team, u, bank', bidders', fresh', hteam, hnext, hdescend⟩
    · rw [hend]
    · have hless := length_unvisited_cons_lt fresh hteam
      rw [hnext, hdescend]
      exact walk_descend p input turns (t :: visited) bank' bidders' u fresh' (by omega)

/-- On any population a decision ends within as many turns as there are live teams, and one more. -/
theorem walk_teamAct (p : Population) (input : Observation) (t : TeamId) (visited : List TeamId)
    (bank : Bank) :
    Turn.walk p input (p.teams.size + 1) ⟨t, visited, bank, []⟩ =
      some (p.teamAct t input bank visited) := by
  have hsize : (p.unvisited (visited.filter (· ≠ t))).length ≤ p.teams.size :=
    (List.length_filter_le ..).trans_eq (List.length_map _)
  have hwalk := p.walk_descend input (p.teams.size + 1) (visited.filter (· ≠ t)) bank [] t (by simp)
    (Nat.lt_succ_of_le hsize)
  rw [teamAct, ← hwalk]
  simp only [Turn.walk, Turn.next]
  rw [List.filter_filter]
  simp
  rfl

end Population

/-- A live team, all of whose members are live, polls: those members that are eligible when the given
teams have been visited bid in order. -/
def Polls (p : Population) (input : Observation) (visited : List TeamId) (bank : Bank) (t : TeamId)
    (bids : List Bid) (after : Bank) : Prop :=
  ∃ (team : Team) (entries : List Entry), p.teams.find? t = some team ∧
    team.members = entries.map Prod.fst ∧ (∀ e ∈ entries, p.learners.find? e.1 = some e.2) ∧
    bidAll input (entries.filter fun e => e.2.action.eligible visited) bank = (bids, after)

/-- The decision of a team when the given teams have been visited, with the chain of teams that it
runs through, the learners that bid, in order, and the last bank. -/
inductive Decides (p : Population) (input : Observation) : List TeamId → Bank → TeamId →
    List TeamId → List LearnerId → Except PopulationError AtomicAction → Bank → Prop where
  | stuck {visited bank t after} : Polls p input (t :: visited) bank t [] after →
    Decides p input visited bank t [t] [] (.error (.noEligibleLearner t)) after
  | ends {visited bank t bids after w a} : Polls p input (t :: visited) bank t bids after →
    IsWinner bids w → w.entry.2.action = .atomic a →
    Decides p input visited bank t [t] (bids.map (·.entry.1)) (.ok a) after
  | follows {visited bank t bids after w u chain bidders result last} :
    Polls p input (t :: visited) bank t bids after →
    IsWinner bids w → w.entry.2.action = .team u →
    Decides p input (t :: visited) after u chain bidders result last →
    Decides p input visited bank t (t :: chain) (bids.map (·.entry.1) ++ bidders) result last

theorem IsWinner.mem {bids : List Bid} {w : Bid} (h : IsWinner bids w) : w ∈ bids := by
  obtain ⟨before, after, rfl, _⟩ := h
  simp

namespace Polls

variable {p : Population} {input : Observation} {visited : List TeamId} {bank after : Bank}
  {t : TeamId} {bids : List Bid}

/-- Only eligible live members bid. -/
theorem of_mem (h : Polls p input visited bank t bids after) {b : Bid} (hb : b ∈ bids) :
    b.entry.2.action.eligible visited = true ∧ p.learners.find? b.entry.1 = some b.entry.2 := by
  obtain ⟨team, entries, _, _, hlive, hbids⟩ := h
  have hmap := map_entry_bidAll input (entries.filter fun e => e.2.action.eligible visited) bank
  rw [hbids] at hmap
  have hmem : b.entry ∈ entries.filter fun e => e.2.action.eligible visited :=
    hmap ▸ List.mem_map_of_mem hb
  exact ⟨(List.mem_filter.1 hmem).2, hlive _ (List.mem_filter.1 hmem).1⟩

end Polls

namespace Decides

variable {p : Population} {input : Observation} {visited : List TeamId} {bank last : Bank}
  {t : TeamId} {chain : List TeamId} {bidders : List LearnerId}
  {result : Except PopulationError AtomicAction}

theorem head (h : Decides p input visited bank t chain bidders result last) :
    ∃ rest, chain = t :: rest := by
  cases h <;> exact ⟨_, rfl⟩

theorem live (h : Decides p input visited bank t chain bidders result last) :
    ∀ u ∈ chain, ∃ team, p.teams.find? u = some team := by
  induction h with
  | stuck hpolls =>
    obtain ⟨team, _, hteam, _⟩ := hpolls
    simpa using ⟨team, hteam⟩
  | ends hpolls =>
    obtain ⟨team, _, hteam, _⟩ := hpolls
    simpa using ⟨team, hteam⟩
  | follows hpolls _ _ _ ih =>
    obtain ⟨team, _, hteam, _⟩ := hpolls
    exact List.forall_mem_cons.2 ⟨⟨team, hteam⟩, ih⟩

/-- Behind its first team a chain meets neither that team nor one visited before. -/
theorem fresh (h : Decides p input visited bank t chain bidders result last) :
    ∀ u ∈ chain.tail, u ∉ t :: visited := by
  induction h with
  | stuck => simp
  | ends => simp
  | @follows visited bank t bids after w u chain bidders result last hpolls hwin ha hrest ih =>
    have hu : u ∉ t :: visited := by
      simpa [Action.eligible, Action.target?, ha] using (hpolls.of_mem hwin.mem).1
    obtain ⟨rest, rfl⟩ := hrest.head
    rintro v (_ | ⟨_, hv⟩)
    · exact hu
    · exact fun hmem => ih v hv (List.mem_cons_of_mem _ hmem)

theorem nodup (h : Decides p input visited bank t chain bidders result last) : chain.Nodup := by
  induction h with
  | stuck => simp
  | ends => simp
  | @follows visited bank t bids after w u chain bidders result last hpolls hwin ha hrest ih =>
    have hfresh := (Decides.follows hpolls hwin ha hrest).fresh
    exact List.nodup_cons.2 ⟨fun hmem => hfresh t hmem List.mem_cons_self, ih⟩

end Decides

theorem Action.eligible_congr {v v' : List TeamId} (h : ∀ u, u ∈ v ↔ u ∈ v') (a : Action) :
    a.eligible v = a.eligible v' := by
  simp only [Action.eligible]
  cases a.target? <;> simp [h]

namespace Population

/-- A node that is not live, but that a decision of the team may come upon: the team itself, the target
of an action or a member of a team. -/
inductive Missing (p : Population) (t : TeamId) : PopulationError → Prop where
  | team : p.teams.contains t = false → Missing p t (.unknownTeam t)
  | target {u : TeamId} : u ∈ p.actionTargets → p.teams.contains u = false →
    Missing p t (.unknownTeam u)
  | member {l : LearnerId} : l ∈ p.memberships → p.learners.contains l = false →
    Missing p t (.unknownLearner l)

/-- The recount finds every node live that a live team's decision may come upon. -/
theorem not_missing {p : Population} (hp : p.checkReferences = .ok ()) {t : TeamId}
    (ht : p.teams.contains t = true) (e : PopulationError) : ¬ p.Missing t e := by
  obtain ⟨htargets, hmembers, -⟩ := (checkReferences_eq_ok_iff p).1 hp
  rintro (hdead | ⟨hmem, hdead⟩ | ⟨hmem, hdead⟩)
  · exact absurd ht (by simp [hdead])
  · exact absurd (htargets _ hmem) (by simp [hdead])
  · exact absurd (hmembers _ hmem) (by simp [hdead])

section

variable {p : Population} (input : Observation)

private theorem exists_entries : ∀ {ls : List LearnerId},
    (∀ l ∈ ls, p.learners.contains l = true) → ∃ entries : List Entry,
      ls = entries.map Prod.fst ∧ ∀ e ∈ entries, p.learners.find? e.1 = some e.2
  | [], _ => ⟨[], rfl, by simp⟩
  | l :: ls, h => by
    obtain ⟨hl, hls⟩ := List.forall_mem_cons.1 h
    obtain ⟨learner, hlearner⟩ := OrderedMap.contains_iff.1 hl
    obtain ⟨entries, rfl, hentries⟩ := exists_entries hls
    exact ⟨(l, learner) :: entries, rfl, List.forall_mem_cons.2 ⟨hlearner, hentries⟩⟩

/-- What the poll of a team has come to, among teams with the members of `t :: visited`. -/
private theorem polls_of_run {visited among : List TeamId} {t : TeamId} {team : Team}
    (ht : p.teams.find? t = some team) (hsame : ∀ u, u ∈ among ↔ u ∈ t :: visited) {bank : Bank}
    {bidders : List LearnerId} {poll : Poll among}
    (hrun : Poll.run p input team.members (⟨bank, bidders, none⟩ : Poll among) = (poll, none)) :
    ∃ bids : List Bid, Polls p input (t :: visited) bank t bids poll.bank ∧
      poll.bidders = bidders ++ bids.map (·.entry.1) ∧ poll.Holds bids ∧
      ∀ b ∈ bids, b.value.isFinite = true := by
  obtain ⟨entries, hmembers, hlive⟩ := exists_entries (Poll.live_of_run hrun)
  obtain ⟨poll', hrun', hbank, hbidders, hholds⟩ := Poll.run_eq p input entries
    (⟨bank, bidders, none⟩ : Poll among) hlive (show Poll.Holds _ [] from rfl) (by simp)
  rw [hmembers] at hrun
  obtain rfl : poll' = poll := congrArg Prod.fst (hrun'.symm.trans hrun)
  have hfilter : (entries.filter fun e => e.2.action.eligible among) =
      entries.filter fun e => e.2.action.eligible (t :: visited) :=
    List.filter_congr fun e _ => Action.eligible_congr hsame e.2.action
  refine ⟨_, ⟨team, entries, ht, hmembers, hlive, ?_⟩, hbidders, hholds, isFinite_bidAll _ _ _⟩
  rw [← hfilter, hbank]

/-- On any population the code's decision is the declarative one, unless it comes upon a node that is
not live; then it is refused for this node. -/
theorem descend_decides_or_missing (among : List TeamId) (bank : Bank) (bidders : List LearnerId)
    (t : TeamId) (fresh : t ∉ among) (visited : List TeamId)
    (hsame : ∀ u, u ∈ t :: among ↔ u ∈ t :: visited) :
    let d := p.descend input among bank bidders t fresh
    (∃ chain made, Decides p input visited bank t chain made d.result d.bank ∧
      d.bidders = bidders ++ made ∧ ∀ u, u ∈ d.visited ↔ u ∈ visited ∨ u ∈ chain) ∨
    ∃ e, d.result = .error e ∧ p.Missing t e := by
  -- `among` is the list that the recursion carries and `visited` the one that the chain does. The two
  -- have the same members behind `t`, and eligibility asks for no more.
  fun_induction p.descend input among bank bidders t fresh generalizing visited with
  | case1 among bank bidders t fresh hteam =>
    exact .inr ⟨_, rfl, .team (by rw [OrderedMap.contains, hteam]; rfl)⟩
  | case2 among bank bidders t fresh team hteam poll e hpoll =>
    obtain ⟨l, hl, hdead, rfl⟩ := Poll.exists_of_run hpoll
    exact .inr ⟨_, rfl, .member (mem_memberships_iff.2 ⟨t, team, hteam, hl⟩) hdead⟩
  | case3 among bank bidders t fresh team hteam poll hpoll hbest =>
    obtain ⟨bids, hpolls, hbidders, hholds, hfin⟩ := polls_of_run input hteam hsame hpoll
    have hnone : bids = [] := by
      simp only [Poll.Holds] at hholds
      rwa [hbest] at hholds
    subst hnone
    exact .inl ⟨[t], [], .stuck hpolls, hbidders, fun u => by simpa [or_comm] using hsame u⟩
  | case4 among bank bidders t fresh team hteam poll hpoll winner hbest a ha =>
    obtain ⟨bids, hpolls, hbidders, hholds, hfin⟩ := polls_of_run input hteam hsame hpoll
    obtain ⟨id, hwin⟩ := hholds.isWinner hfin hbest
    exact .inl ⟨[t], _, .ends hpolls hwin ha, hbidders, fun u => by simpa [or_comm] using hsame u⟩
  | case5 among bank bidders t fresh team hteam poll hpoll winner hbest u ha ih =>
    obtain ⟨bids, hpolls, hbidders, hholds, hfin⟩ := polls_of_run input hteam hsame hpoll
    obtain ⟨id, hwin⟩ := hholds.isWinner hfin hbest
    have hsame' : ∀ v, v ∈ u :: t :: among ↔ v ∈ u :: t :: visited := fun v => by
      rw [List.mem_cons, hsame]
      simp only [List.mem_cons]
    obtain ⟨chain, made, hdecides, hmade, hvisited⟩ | ⟨e, he, hmissing⟩ := ih (t :: visited) hsame'
    · refine .inl ⟨t :: chain, _, .follows hpolls hwin ha hdecides, ?_, fun v => ?_⟩
      · rw [hmade, hbidders, List.append_assoc]
      · rw [hvisited, List.mem_cons, List.mem_cons]
        tauto
    · refine .inr ⟨e, he, ?_⟩
      cases hmissing with
      | team hdead =>
        have hlive := (hpolls.of_mem hwin.mem).2
        exact .target (mem_actionTargets_iff.2 ⟨_, _, hlive, by rw [ha]; rfl⟩) hdead
      | target hmem hdead => exact .target hmem hdead
      | member hmem hdead => exact .member hmem hdead

/-- In a population that the recount accepts, the code's decision is the declarative one. -/
theorem descend_decides (hp : p.checkReferences = .ok ()) (among : List TeamId) (bank : Bank)
    (bidders : List LearnerId) (t : TeamId) (fresh : t ∉ among) (visited : List TeamId)
    (hsame : ∀ u, u ∈ t :: among ↔ u ∈ t :: visited) (ht : p.teams.contains t = true) :
    let d := p.descend input among bank bidders t fresh
    ∃ chain made, Decides p input visited bank t chain made d.result d.bank ∧
      d.bidders = bidders ++ made ∧ ∀ u, u ∈ d.visited ↔ u ∈ visited ∨ u ∈ chain :=
  (descend_decides_or_missing input among bank bidders t fresh visited hsame).resolve_right
    fun ⟨e, _, hmissing⟩ => not_missing hp ht e hmissing

end

/-- A decision ends on any population. In a population that the recount accepts, the decision of a
live team is that of a chain of distinct live teams, none of them visited before but perhaps the first;
the teams visited in the end are those visited before and the chain. -/
theorem teamAct_decides (p : Population) (t : TeamId) (input : Observation) (bank : Bank)
    (visited : List TeamId) :
    Turn.walk p input (p.teams.size + 1) ⟨t, visited, bank, []⟩ =
      some (p.teamAct t input bank visited) ∧
    (p.checkReferences = .ok () → p.teams.contains t = true →
      let d := p.teamAct t input bank visited
      ∃ chain, Decides p input visited bank t chain d.bidders d.result d.bank ∧
        chain.head? = some t ∧ chain.Nodup ∧ (∀ u ∈ chain, p.teams.contains u = true) ∧
        (∀ u ∈ chain.tail, u ∉ visited) ∧ ∀ u, u ∈ d.visited ↔ u ∈ visited ∨ u ∈ chain) := by
  refine ⟨walk_teamAct p input t visited bank, ?_⟩
  intro hp ht d
  have hsame : ∀ u, u ∈ t :: visited.filter (· ≠ t) ↔ u ∈ t :: visited := by
    intro u
    by_cases hu : u = t <;> simp [hu]
  obtain ⟨chain, made, hdecides, hmade, hvisited⟩ :=
    descend_decides input hp _ bank [] t (by simp) visited hsame ht
  obtain ⟨rest, hchain⟩ := hdecides.head
  refine ⟨chain, ?_, by rw [hchain]; rfl, hdecides.nodup,
    fun u hu => OrderedMap.contains_iff.2 (hdecides.live u hu),
    fun u hu hmem => hdecides.fresh u hu (List.mem_cons_of_mem _ hmem), hvisited⟩
  rwa [← List.nil_append made, ← hmade] at hdecides

def oneNumber : Observation := ⟨#[1.0], [1], by simp, by simp, rfl⟩

/-- A learner that bids the number it sees, or else 0. -/
def rival (l : LearnerId) (high : Bool) (action : Action) (references : Nat) : LearnerId × Learner where
  fst := l
  snd :=
    { id := l, program := ⟨⟨l.index⟩, [⟨if high then 1 else 0, 0, 0, 0, 0, 0⟩]⟩, mode := .scalar
      addressing := .full, group := 0, action, references, registers := 8, memory := [] }

/-- Three teams. The first has a learner that leads to the second, which has others that lead back to
the first and on to the third. In each of the first two, several learners bid as high as one another. -/
def rivals : Population where
  settings := {}
  ranges := .ofSettings {}
  counters := ⟨6, 6, 3⟩
  teams := .ofList [
    (⟨0⟩, ⟨⟨0⟩, [⟨1⟩, ⟨0⟩, ⟨5⟩], 1, .empty⟩),
    (⟨1⟩, ⟨⟨1⟩, [⟨2⟩, ⟨4⟩, ⟨1⟩, ⟨3⟩, ⟨5⟩], 1, .empty⟩), (⟨2⟩, ⟨⟨2⟩, [⟨3⟩], 1, .empty⟩)]
  learners := .ofList [
    rival ⟨0⟩ true (.team ⟨1⟩) 1, rival ⟨1⟩ false (.atomic (.label 5)) 2,
    rival ⟨2⟩ true (.team ⟨0⟩) 1, rival ⟨3⟩ true (.atomic (.label 7)) 2,
    rival ⟨4⟩ true (.team ⟨2⟩) 1, rival ⟨5⟩ true (.atomic (.label 8)) 2]

/-- If the third team has been visited, the second one passes over the learners that lead to the third
and back to the first. -/
theorem rivals_decides :
    rivals.checkReferences = .ok () ∧ rivals.teams.contains ⟨0⟩ = true ∧
      let d := rivals.teamAct ⟨0⟩ oneNumber (.zeros 1 1) [⟨2⟩]
      d.result = .ok (.label 7) ∧ d.bidders = [⟨1⟩, ⟨0⟩, ⟨5⟩, ⟨1⟩, ⟨3⟩, ⟨5⟩] ∧
      ∃ chain, Decides rivals oneNumber [⟨2⟩] (.zeros 1 1) ⟨0⟩ chain
          d.bidders d.result d.bank ∧
        chain.head? = some ⟨0⟩ ∧ chain.Nodup ∧
        (∀ u ∈ chain, rivals.teams.contains u = true) ∧ (∀ u ∈ chain.tail, u ∉ [⟨2⟩]) ∧
        ∀ u, u ∈ d.visited ↔ u ∈ [⟨2⟩] ∨ u ∈ chain := by
  have hp : rivals.checkReferences = .ok () := rfl
  have ht : rivals.teams.contains ⟨0⟩ = true := rfl
  obtain ⟨hwalk, hdecides⟩ := teamAct_decides rivals ⟨0⟩ oneNumber (.zeros 1 1) [⟨2⟩]
  have hrun : (Turn.walk rivals oneNumber (rivals.teams.size + 1) ⟨⟨0⟩, [⟨2⟩], .zeros 1 1, []⟩).map
      (fun d => (d.result, d.bidders)) =
        some (.ok (.label 7), [⟨1⟩, ⟨0⟩, ⟨5⟩, ⟨1⟩, ⟨3⟩, ⟨5⟩]) := rfl
  rw [hwalk] at hrun
  obtain ⟨hresult, hbidders⟩ := Prod.mk.inj (Option.some.inj hrun)
  exact ⟨hp, ht, hresult, hbidders, hdecides hp ht⟩

end Population

end TangledPrograms
