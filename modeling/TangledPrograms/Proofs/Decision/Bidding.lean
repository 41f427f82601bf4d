import TangledPrograms.Population.Decision
import TangledPrograms.Proofs.Machine.Safety

/-!
# Bids and their winner

Entries of a member list bid in order, each on the bank that the one before left. Bids are finite, so
they are comparable, and the poll of a team ends with the first of the highest.
-/

namespace TangledPrograms

open Machine (Bank)

/-- An entry of a member list: the number and the learner. -/
abbrev Entry := LearnerId × Learner

/-- What an entry bids. -/
structure Bid where
  entry : Entry
  value : Float

def bidAll (input : Observation) : List Entry → Bank → List Bid × Bank
  | [], bank => ([], bank)
  | e :: rest, bank =>
    let (value, bank) := e.2.bid input bank
    let (bids, bank) := bidAll input rest bank
    (⟨e, value⟩ :: bids, bank)

/-- The first of the bids that are at least as high as every other one. -/
def IsWinner (bids : List Bid) (w : Bid) : Prop :=
  ∃ before after, bids = before ++ w :: after ∧ (∀ b ∈ bids, b.value ≤ w.value) ∧
    ∀ b ∈ before, ∃ c ∈ bids, ¬ c.value ≤ b.value

theorem Learner.isFinite_bid (l : Learner) (input : Observation) (bank : Bank) :
    (l.bid input bank).1.isFinite = true := by
  simp only [Learner.bid, Program.execute]
  cases l.mode with
  | scalar =>
    obtain ⟨_, _, hanswer, _⟩ := Machine.Scalar.execute_checked (l.addressing.view input).values
      (Array.replicate (max l.registers 1) 0.0) l.program.code bank l.group
    rwa [Array.size_replicate] at hanswer
  | vector =>
    obtain ⟨_, _, hanswer, _⟩ := Machine.Vector.execute_checked (l.addressing.view input).values
      (l.addressing.view input).rowsCols (.zeros l.registers l.registers) l.program.code bank l.group
    rwa [Machine.Vector.run, ← Machine.Grid.reset, Machine.Grid.reset_zeros] at hanswer

theorem isFinite_bidAll (input : Observation) : ∀ (entries : List Entry) (bank : Bank),
    ∀ b ∈ (bidAll input entries bank).1, b.value.isFinite = true
  | [], _, b, h => by cases h
  | e :: rest, bank, b, h => by
    rcases List.mem_cons.1 h with rfl | h
    · exact e.2.isFinite_bid input bank
    · exact isFinite_bidAll input rest _ b h

theorem map_entry_bidAll (input : Observation) : ∀ (entries : List Entry) (bank : Bank),
    (bidAll input entries bank).1.map (·.entry) = entries
  | [], _ => rfl
  | e :: rest, _ => congrArg (e :: ·) (map_entry_bidAll input rest _)

namespace Poll

variable {visited : List TeamId}

/-- The best of a poll is the first of the highest of the bids made so far. -/
def Holds (poll : Poll visited) (bids : List Bid) : Prop :=
  match poll.best with
  | none => bids = []
  | some best => ∃ before id after,
    bids = before ++ ⟨(id, best.learner), best.bid⟩ :: after ∧
      (∀ b ∈ before, b.value < best.bid) ∧ ∀ b ∈ after, b.value ≤ best.bid

theorem Holds.add {poll : Poll visited} {bids : List Bid} (h : poll.Holds bids)
    (hfin : ∀ b ∈ bids, b.value.isFinite = true) (input : Observation) (id : LearnerId) (l : Learner)
    (he : l.action.eligible visited) :
    (poll.add input id l he).Holds (bids ++ [⟨(id, l), (l.bid input poll.bank).1⟩]) := by
  have hbid := l.isFinite_bid input poll.bank
  simp only [Holds] at h
  simp only [Holds, Poll.add]
  cases hbest : poll.best with
  | none =>
    rw [hbest] at h
    subst h
    exact ⟨[], id, [], rfl, by simp, by simp⟩
  | some best =>
    rw [hbest] at h
    obtain ⟨before, i, after, rfl, hbefore, hafter⟩ := h
    have hb : best.bid.isFinite = true := hfin ⟨(i, best.learner), best.bid⟩ (by simp)
    by_cases hlt : best.bid < (l.bid input poll.bank).1
    · -- The new bid is strictly above the best one, hence above all that came before it.
      simp only [hlt, if_true]
      refine ⟨_, id, [], rfl, fun b hm => ?_, by simp⟩
      have hle : b.value ≤ best.bid := by
        rcases List.mem_append.1 hm with hm' | hm'
        · exact Number.le_of_lt (hfin b hm) hb (hbefore b hm')
        · rcases List.mem_cons.1 hm' with rfl | hm'
          · exact Number.le_refl hb
          · exact hafter b hm'
      exact Number.lt_of_le_of_lt (hfin b hm) hb hbid hle hlt
    · simp only [hlt, if_false]
      refine ⟨before, i, after ++ [⟨(id, l), (l.bid input poll.bank).1⟩], by simp, hbefore, ?_⟩
      intro b hm
      rcases List.mem_append.1 hm with hm | hm
      · exact hafter b hm
      · obtain rfl := List.mem_singleton.1 hm
        exact (Number.not_lt_iff hb hbid).1 hlt

theorem Holds.isWinner {poll : Poll visited} {bids : List Bid} (h : poll.Holds bids)
    (hfin : ∀ b ∈ bids, b.value.isFinite = true) {best : Bidder visited} (hbest : poll.best = some best) :
    ∃ id, IsWinner bids ⟨(id, best.learner), best.bid⟩ := by
  simp only [Holds] at h
  rw [hbest] at h
  obtain ⟨before, id, after, rfl, hbefore, hafter⟩ := h
  have hb : best.bid.isFinite = true := hfin ⟨(id, best.learner), best.bid⟩ (by simp)
  refine ⟨id, before, after, rfl, fun b hm => ?_, fun b hm => ?_⟩
  · rcases List.mem_append.1 hm with hm' | hm'
    · exact Number.le_of_lt (hfin b hm) hb (hbefore b hm')
    · rcases List.mem_cons.1 hm' with rfl | hm'
      · exact Number.le_refl hb
      · exact hafter b hm'
  · have hbm : b.value.isFinite = true := hfin b (List.mem_append_left _ hm)
    refine ⟨_, List.mem_append_right _ List.mem_cons_self, fun hle => ?_⟩
    exact (Number.not_lt_iff hbm hb).2 hle
      (hbefore b hm)

/-- The poll of live learners comes to an end: the eligible ones have bid, in order, and no other
one. -/
theorem run_eq (p : Population) (input : Observation) : ∀ (entries : List Entry) (poll : Poll visited)
    {bids : List Bid}, (∀ e ∈ entries, p.learners.find? e.1 = some e.2) → poll.Holds bids →
    (∀ b ∈ bids, b.value.isFinite = true) →
    let r := bidAll input (entries.filter fun e => e.2.action.eligible visited) poll.bank
    ∃ poll' : Poll visited, run p input (entries.map (·.1)) poll = (poll', none) ∧ poll'.bank = r.2 ∧
      poll'.bidders = poll.bidders ++ r.1.map (·.entry.1) ∧ poll'.Holds (bids ++ r.1)
  | [], poll, bids, _, hp, _ => ⟨poll, rfl, rfl, by simp [bidAll], by simpa [bidAll] using hp⟩
  | (id, l) :: rest, poll, bids, hlive, hp, hfin => by
    intro r
    have hl : p.learners.find? id = some l := hlive (id, l) List.mem_cons_self
    have hrest : ∀ e ∈ rest, p.learners.find? e.1 = some e.2 :=
      fun e he => hlive e (List.mem_cons_of_mem _ he)
    by_cases he : l.action.eligible visited
    · have hfin' : ∀ b ∈ bids ++ [⟨(id, l), (l.bid input poll.bank).1⟩], b.value.isFinite = true := by
        intro b hm
        rcases List.mem_append.1 hm with hm | hm
        · exact hfin b hm
        · obtain rfl := List.mem_singleton.1 hm
          exact l.isFinite_bid input poll.bank
      obtain ⟨poll', hrun, hbank, hbidders, hholds⟩ :=
        run_eq p input rest (poll.add input id l he) hrest (hp.add hfin input id l he) hfin'
      refine ⟨poll', ?_, ?_, ?_, ?_⟩
      · simpa [run, hl, he] using hrun
      · simpa [r, he, bidAll, add] using hbank
      · simpa [r, he, bidAll, add] using hbidders
      · simpa [r, he, bidAll, add] using hholds
    · obtain ⟨poll', hrun, hbank, hbidders, hholds⟩ := run_eq p input rest poll hrest hp hfin
      refine ⟨poll', ?_, ?_, ?_, ?_⟩
      · simpa [run, hl, he] using hrun
      · simpa [r, he] using hbank
      · simpa [r, he] using hbidders
      · simpa [r, he] using hholds

/-- A poll is refused for the first member that is not live, and for nothing else. -/
theorem run_refusal (p : Population) (input : Observation) : ∀ (ls : List LearnerId)
    (poll : Poll visited), (run p input ls poll).2 =
      (ls.find? fun l => !p.learners.contains l).map .unknownLearner
  | [], _ => rfl
  | id :: rest, poll => by
    simp only [run, List.find?_cons, OrderedMap.contains]
    cases p.learners.find? id with
    | none => rfl
    | some l =>
      dsimp only
      split <;> exact run_refusal p input rest _

theorem live_of_run {p : Population} {input : Observation} {ls : List LearnerId}
    {poll poll' : Poll visited} (h : run p input ls poll = (poll', none)) :
    ∀ l ∈ ls, p.learners.contains l = true := by
  have hnone := run_refusal p input ls poll
  rw [h, eq_comm, Option.map_eq_none_iff, List.find?_eq_none] at hnone
  simpa using hnone

theorem exists_of_run {p : Population} {input : Observation} {ls : List LearnerId}
    {poll poll' : Poll visited} {e : PopulationError} (h : run p input ls poll = (poll', some e)) :
    ∃ l ∈ ls, p.learners.contains l = false ∧ e = .unknownLearner l := by
  have hsome := run_refusal p input ls poll
  rw [h, eq_comm, Option.map_eq_some_iff] at hsome
  obtain ⟨l, hfind, rfl⟩ := hsome
  exact ⟨l, List.mem_of_find?_eq_some hfind, by simpa using List.find?_some hfind, rfl⟩

end Poll

end TangledPrograms
