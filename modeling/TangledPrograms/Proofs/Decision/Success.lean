import Mathlib.Logic.Relation
import TangledPrograms.Proofs.Decision.Descent

/-!
# Decisions that cannot fail

A decision fails when a team finds no member to follow, or a member or a team that is not live. In a
population that the recount accepts the second never happens, on any path; and the first does not
happen to a team with an atomic member, since such a member is eligible whatever has been visited.
-/

namespace TangledPrograms

open Machine (Bank)

namespace Population

/-- A live team lists a live learner with the given action. -/
def Offers (p : Population) (t : TeamId) (a : Action) : Prop :=
  ∃ team l learner, p.teams.find? t = some team ∧ l ∈ team.members ∧
    p.learners.find? l = some learner ∧ learner.action = a

/-- A path of action edges from one team to another. -/
def Reaches (p : Population) : TeamId → TeamId → Prop :=
  Relation.ReflTransGen fun t u => p.Offers t (.team u)

end Population

@[simp] theorem Action.eligible_atomic (visited : List TeamId) (a : AtomicAction) :
    (Action.atomic a).eligible visited = true := rfl

namespace Polls

variable {p : Population} {input : Observation} {visited : List TeamId} {bank after : Bank}
  {t : TeamId} {bids : List Bid}

/-- Whoever bids is on the team. -/
theorem offers (h : Polls p input visited bank t bids after) {b : Bid} (hb : b ∈ bids) :
    p.Offers t b.entry.2.action := by
  obtain ⟨team, entries, hteam, hmembers, hlive, hbids⟩ := h
  have hmap := map_entry_bidAll input (entries.filter fun e => e.2.action.eligible visited) bank
  rw [hbids] at hmap
  have hmem : b.entry ∈ entries :=
    List.mem_of_mem_filter (hmap ▸ List.mem_map_of_mem hb)
  have hlisted : b.entry.1 ∈ team.members := hmembers ▸ List.mem_map_of_mem hmem
  exact ⟨team, b.entry.1, b.entry.2, hteam, hlisted, hlive _ hmem, rfl⟩

/-- On a team with an atomic member somebody bids, whatever has been visited. -/
theorem ne_nil (h : Polls p input visited bank t bids after) {a : AtomicAction}
    (ha : p.Offers t (.atomic a)) : bids ≠ [] := by
  obtain ⟨team, entries, hteam, hmembers, hlive, hbids⟩ := h
  obtain ⟨team', l, learner, hteam', hlisted, hl, hatomic⟩ := ha
  obtain rfl : team = team' := Option.some.inj (hteam.symm.trans hteam')
  have hmap := map_entry_bidAll input (entries.filter fun e => e.2.action.eligible visited) bank
  rw [hbids] at hmap
  rw [hmembers] at hlisted
  obtain ⟨e, he, rfl⟩ := List.mem_map.1 hlisted
  obtain rfl : e.2 = learner := Option.some.inj ((hlive e he).symm.trans hl)
  have heligible : e ∈ entries.filter fun e => e.2.action.eligible visited :=
    List.mem_filter.2 ⟨he, by rw [hatomic]; rfl⟩
  rintro rfl
  rw [← hmap] at heligible
  cases heligible

end Polls

/-- Where every live team has an atomic member, a decision comes to an action, and some team behind
the first one offers it. -/
theorem Decides.succeeds {p : Population} {input : Observation} {visited : List TeamId}
    {bank last : Bank} {t : TeamId} {chain : List TeamId} {bidders : List LearnerId}
    {result : Except PopulationError AtomicAction}
    (h : Decides p input visited bank t chain bidders result last)
    (hatomic : ∀ u ∈ chain, ∃ a, p.Offers u (.atomic a)) :
    ∃ a u, result = .ok a ∧ p.Reaches t u ∧ p.Offers u (.atomic a) := by
  induction h with
  | stuck hpolls =>
    obtain ⟨a, ha⟩ := hatomic _ List.mem_cons_self
    exact absurd rfl (hpolls.ne_nil ha)
  | @ends visited bank t bids after w a hpolls hwin ha =>
    exact ⟨a, t, rfl, .refl, ha ▸ hpolls.offers hwin.mem⟩
  | @follows visited bank t bids after w u chain bidders result last hpolls hwin ha _ ih =>
    obtain ⟨a, v, hresult, hreaches, hoffers⟩ := ih fun v hv => hatomic v (List.mem_cons_of_mem _ hv)
    have hedge : p.Offers t (.team u) := ha ▸ hpolls.offers hwin.mem
    exact ⟨a, v, hresult, hreaches.head hedge, hoffers⟩

namespace Population

/-- Recording changes nothing about the decision itself. -/
theorem actRecording_fst (p : Population) (t : TeamId) (input : Observation) (bank : Bank) :
    (p.actRecording t input bank).1 = p.act t input bank := by
  simp only [actRecording]
  split <;> rfl

/-- In a population that the recount accepts and in which every live team has an atomic member, every
live team decides on every input and every bank, whatever cycles and shared learners there are: the
result is the atomic action of a learner on a team that action edges lead to. -/
theorem act_succeeds {p : Population} (hp : p.checkReferences = .ok ())
    (hatomic : ∀ t, p.teams.contains t = true → ∃ a, p.Offers t (.atomic a)) {t : TeamId}
    (ht : p.teams.contains t = true) (input : Observation) (bank : Bank) :
    ∃ a u, (p.act t input bank).result = .ok a ∧
      (p.actRecording t input bank).1.result = .ok a ∧
      p.Reaches t u ∧ p.Offers u (.atomic a) := by
  obtain ⟨chain, made, hdecides, _, _⟩ := descend_decides input hp [] bank [] t (by simp) []
    (fun _ => Iff.rfl) ht
  have hchain : ∀ u ∈ chain, ∃ a, p.Offers u (.atomic a) :=
    fun u hu => hatomic u (OrderedMap.contains_iff.2 (hdecides.live u hu))
  obtain ⟨a, u, hresult, hreaches, hoffers⟩ := hdecides.succeeds hchain
  have hact : (p.act t input bank).result = .ok a := hresult
  exact ⟨a, u, hact, by rw [actRecording_fst, hact], hreaches, hoffers⟩

/-- Two teams that lead to each other and share the one learner with a label. -/
def encircled : Population where
  settings := {}
  ranges := .ofSettings {}
  counters := ⟨2, 3, 3⟩
  teams := .ofList [(⟨0⟩, ⟨⟨0⟩, [⟨0⟩, ⟨2⟩], 1, .empty⟩), (⟨1⟩, ⟨⟨1⟩, [⟨1⟩, ⟨2⟩], 1, .empty⟩)]
  learners := .ofList [
    (⟨0⟩, ⟨⟨0⟩, ⟨⟨0⟩, [⟨1, 0, 0, 0, 0, 0⟩]⟩, .scalar, .full, 0, .team ⟨1⟩, 1, 8, []⟩),
    (⟨1⟩, ⟨⟨1⟩, ⟨⟨1⟩, [⟨1, 0, 0, 0, 0, 0⟩]⟩, .scalar, .full, 0, .team ⟨0⟩, 1, 8, []⟩),
    (⟨2⟩, ⟨⟨2⟩, ⟨⟨2⟩, [⟨1, 0, 0, 0, 0, 0⟩]⟩, .scalar, .full, 0, .atomic (.label 7), 2, 8, []⟩)]

theorem encircled_offers {t : TeamId} (ht : encircled.teams.contains t = true) :
    encircled.Offers t (.atomic (.label 7)) := by
  obtain ⟨team, hteam⟩ := OrderedMap.contains_iff.1 ht
  have hmem := OrderedMap.mem_of_find?_ofList hteam
  simp only [List.mem_cons, Prod.mk.injEq, List.not_mem_nil, or_false] at hmem
  obtain ⟨rfl, rfl⟩ | ⟨rfl, rfl⟩ := hmem
  · exact ⟨_, ⟨2⟩, _, rfl, by decide, rfl, rfl⟩
  · exact ⟨_, ⟨2⟩, _, rfl, by decide, rfl, rfl⟩

theorem encircled_succeeds :
    encircled.checkReferences = .ok () ∧
      (∀ t, encircled.teams.contains t = true → ∃ a, encircled.Offers t (.atomic a)) ∧
      encircled.teams.contains ⟨0⟩ = true ∧
      ∃ a u, (encircled.act ⟨0⟩ oneNumber (.zeros 1 1)).result = .ok a ∧
        (encircled.actRecording ⟨0⟩ oneNumber (.zeros 1 1)).1.result = .ok a ∧
        encircled.Reaches ⟨0⟩ u ∧ encircled.Offers u (.atomic a) :=
  have hp : encircled.checkReferences = .ok () := rfl
  have hatomic : ∀ t, encircled.teams.contains t = true → ∃ a, encircled.Offers t (.atomic a) :=
    fun _ ht => ⟨_, encircled_offers ht⟩
  have ht : encircled.teams.contains ⟨0⟩ = true := rfl
  ⟨hp, hatomic, ht, act_succeeds hp hatomic ht oneNumber (.zeros 1 1)⟩

end Population

end TangledPrograms
