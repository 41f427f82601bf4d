import TangledPrograms.Proofs.Decision.Descent

/-!
# What a decision depends on

Two populations that agree on a region of teams, which winners do not lead out of, decide alike for
every team of the region. They agree if these teams list the same members and if learners of one number
act and bid alike; what else the populations hold, their counts and memories, does not matter.
-/

namespace TangledPrograms

/-- No poll can tell the learners apart. -/
structure Learner.Alike (l l' : Learner) : Prop where
  action : l.action = l'.action
  bid : ∀ input bank, l.bid input bank = l'.bid input bank

theorem Learner.Alike.rfl {l : Learner} : l.Alike l := ⟨.refl _, fun _ _ => .refl _⟩

theorem Learner.alike_references (l : Learner) (n : Nat) : l.Alike { l with references := n } :=
  ⟨rfl, fun _ _ => rfl⟩

theorem optionRel_alike_self (l : Option Learner) : Option.Rel Learner.Alike l l := by
  cases l with
  | none => exact .none
  | some l => exact .some .rfl

namespace Poll

variable {visited : List TeamId}

/-- The polls stand alike, with highest bidders that are alike. -/
structure Alike (a b : Poll visited) : Prop where
  bank : a.bank = b.bank
  bidders : a.bidders = b.bidders
  best : Option.Rel (fun x y => x.learner.Alike y.learner ∧ x.bid = y.bid) a.best b.best

theorem Alike.add {a b : Poll visited} (h : a.Alike b) (input : Observation) (id : LearnerId)
    {l l' : Learner} (hl : l.Alike l') (he : l.action.eligible visited)
    (he' : l'.action.eligible visited) :
    (a.add input id l he).Alike (b.add input id l' he') := by
  obtain ⟨bank, bidders, best⟩ := a
  obtain ⟨bank', bidders', best'⟩ := b
  obtain ⟨rfl, rfl, hbest⟩ := h
  simp only [Poll.add]
  rw [hl.bid input bank]
  refine ⟨rfl, rfl, ?_⟩
  cases hbest with
  | none => exact .some ⟨hl, rfl⟩
  | @some x y hxy =>
    dsimp only
    rw [hxy.2]
    split
    · exact .some ⟨hl, rfl⟩
    · exact .some hxy

/-- Alike members in turn leave alike polls alike, and are refused alike. -/
theorem Alike.run {p q : Population} (input : Observation) {ls : List LearnerId}
    (hls : ∀ l ∈ ls, Option.Rel Learner.Alike (p.learners.find? l) (q.learners.find? l))
    {a b : Poll visited} (h : a.Alike b) :
    (run p input ls a).1.Alike (run q input ls b).1 ∧
      (run p input ls a).2 = (run q input ls b).2 := by
  induction ls generalizing a b with
  | nil => exact ⟨h, rfl⟩
  | cons id ls ih =>
    have hrest := @ih fun l hl => hls l (List.mem_cons_of_mem _ hl)
    have hid := hls id List.mem_cons_self
    simp only [Poll.run]
    generalize p.learners.find? id = l? at hid
    generalize q.learners.find? id = l'? at hid
    cases hid with
    | none => exact ⟨h, rfl⟩
    | @some l l' hl =>
      have heligible : l.action.eligible visited = l'.action.eligible visited := by rw [hl.action]
      by_cases he : l.action.eligible visited
      · simp only [dif_pos he, dif_pos (heligible ▸ he)]
        exact hrest (h.add input id hl he (heligible ▸ he))
      · simp only [dif_neg he, dif_neg (heligible ▸ he)]
        exact hrest h

/-- The best bidder was so before or is one of the live members that bid. -/
theorem mem_best_run {p : Population} {input : Observation} {ls : List LearnerId}
    {poll : Poll visited} {w : Bidder visited} (h : w ∈ (run p input ls poll).1.best) :
    w ∈ poll.best ∨ ∃ l ∈ ls, p.learners.find? l = some w.learner := by
  induction ls generalizing poll with
  | nil => exact .inl h
  | cons id ls ih =>
    simp only [Poll.run] at h
    split at h
    · exact .inl h
    · rename_i l hl
      split at h
      · rename_i he
        obtain hadd | ⟨k, hk, hfind⟩ := ih h
        · have hw : w ∈ poll.best ∨ w.learner = l := by
            simp only [Poll.add] at hadd
            split at hadd
            · cases hadd
              exact .inr rfl
            · rename_i b hb
              split at hadd
              · cases hadd
                exact .inr rfl
              · cases hadd
                exact .inl hb
          refine hw.imp_right fun hw => ⟨id, List.mem_cons_self, ?_⟩
          rw [hl, hw]
        · exact .inr ⟨k, List.mem_cons_of_mem _ hk, hfind⟩
      · exact (ih h).imp_right fun hk => hk.imp fun k hk => ⟨List.mem_cons_of_mem _ hk.1, hk.2⟩

end Poll

/-- The populations cannot be told apart by decisions that start in the region. -/
structure Population.AgreeOn (p q : Population) (region : TeamId → Prop) : Prop where
  members : ∀ t, region t →
    (p.teams.find? t).map Team.members = (q.teams.find? t).map Team.members
  learners : ∀ t team, region t → p.teams.find? t = some team → ∀ l ∈ team.members,
    Option.Rel Learner.Alike (p.learners.find? l) (q.learners.find? l)
  closed : ∀ t team, region t → p.teams.find? t = some team → ∀ l ∈ team.members,
    ∀ learner u, p.learners.find? l = some learner → learner.action = .team u → region u

namespace Turn

open Population (AgreeOn)

variable {p q : Population} {region : TeamId → Prop} (input : Observation)

/-- A turn in the region leads to the same in both populations, and not out of the region. -/
theorem next_congr (h : AgreeOn p q region) {s : Turn} (hs : region s.team) :
    s.next q input = s.next p input ∧ ∀ s', s.next p input = .inr s' → region s'.team := by
  have hmembers := h.members s.team hs
  simp only [next, nextAmong]
  cases hp : p.teams.find? s.team with
  | none =>
    rw [hp, Option.map_none, eq_comm, Option.map_eq_none_iff] at hmembers
    rw [hmembers]
    exact ⟨rfl, fun _ h => by cases h⟩
  | some team =>
    rw [hp, Option.map_some, eq_comm, Option.map_eq_some_iff] at hmembers
    obtain ⟨team', hq, hteam⟩ := hmembers
    have hstart : (⟨s.bank, s.bidders, none⟩ : Poll (s.team :: s.visited.filter (· ≠ s.team))).Alike
        ⟨s.bank, s.bidders, none⟩ := ⟨rfl, rfl, .none⟩
    obtain ⟨halike, hrefusal⟩ := hstart.run input (h.learners s.team team hs hp)
    have hwinner := fun w => @Poll.mem_best_run (s.team :: s.visited.filter (· ≠ s.team)) p input
      team.members ⟨s.bank, s.bidders, none⟩ w
    simp only [hq, hteam]
    generalize Poll.run p input team.members _ = r at halike hrefusal hwinner ⊢
    generalize Poll.run q input team.members _ = r' at halike hrefusal ⊢
    obtain ⟨⟨bank, bidders, best⟩, refusal⟩ := r
    obtain ⟨⟨bank', bidders', best'⟩, refusal'⟩ := r'
    obtain ⟨rfl, rfl, hbest⟩ := halike
    obtain rfl : refusal = refusal' := hrefusal
    cases refusal with
    | some e => exact ⟨rfl, fun _ h => by cases h⟩
    | none =>
      cases hbest with
      | none => exact ⟨rfl, fun _ h => by cases h⟩
      | @some w w' hw =>
        obtain ⟨l, hl, hfind⟩ := (hwinner w rfl).resolve_left (Option.not_mem_none w)
        have haction := hw.1.action
        simp only
        rw [← haction]
        cases ha : w.learner.action with
        | atomic a => exact ⟨rfl, fun _ h => by cases h⟩
        | team u =>
          refine ⟨rfl, fun s' hs' => ?_⟩
          cases hs'
          exact h.closed s.team team hs hp l hl w.learner u hfind ha

theorem walk_congr (h : AgreeOn p q region) (turns : Nat) {s : Turn} (hs : region s.team) :
    walk q input turns s = walk p input turns s := by
  induction turns generalizing s with
  | zero => rfl
  | succ turns ih =>
    obtain ⟨hnext, hregion⟩ := next_congr input h hs
    simp only [walk]
    rw [hnext]
    cases hn : s.next p input with
    | inl d => rfl
    | inr s' => exact ih (hregion s' hn)

/-- More turns than needed change nothing. -/
theorem walk_mono (p : Population) {turns more : Nat} {s : Turn} {d : Decision}
    (h : walk p input turns s = some d) (hle : turns ≤ more) : walk p input more s = some d := by
  induction turns generalizing s more with
  | zero => cases h
  | succ turns ih =>
    obtain ⟨more, rfl⟩ := Nat.exists_eq_add_one_of_ne_zero (Nat.ne_zero_of_lt hle)
    simp only [walk] at h ⊢
    cases hn : s.next p input with
    | inl d' =>
      rw [hn] at h
      exact h
    | inr s' =>
      rw [hn] at h
      exact ih h (Nat.le_of_succ_le_succ hle)

end Turn

/-- Populations that agree on a region decide alike in it. -/
theorem Population.teamAct_congr {p q : Population} {region : TeamId → Prop}
    (h : AgreeOn p q region) {t : TeamId} (ht : region t) (input : Observation) (bank : Machine.Bank)
    (visited : List TeamId) : q.teamAct t input bank visited = p.teamAct t input bank visited := by
  -- The populations may differ in size; both walks are given the turns that the larger one needs.
  have hp := Turn.walk_mono input p (p.walk_teamAct input t visited bank)
    (Nat.le_max_left _ (q.teams.size + 1))
  have hq := Turn.walk_mono input q (q.walk_teamAct input t visited bank)
    (Nat.le_max_right (p.teams.size + 1) _)
  rw [Turn.walk_congr input h _ (show region (Turn.team ⟨t, visited, bank, []⟩) from ht), hp] at hq
  exact (Option.some.inj hq).symm

end TangledPrograms
