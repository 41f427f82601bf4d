import TangledPrograms.Proofs.Population.Rounds

/-!
# Learners that lead back to their own team

The mutation of a learner never makes its parent its target, and it changes no other edge. So it can
lead a team back to itself in one way only: another team than the parent lists the same learner, and
becomes its target.
-/

namespace TangledPrograms.Population

open ActionMutation

def Lists (p : Population) (t : TeamId) (l : LearnerId) : Prop :=
  ∃ team, p.teams.find? t = some team ∧ l ∈ team.members

def LeadsTo (p : Population) (l : LearnerId) (t : TeamId) : Prop :=
  ∃ learner, p.learners.find? l = some learner ∧ learner.action = .team t

/-- A team lists a learner whose action is that same team. -/
def LeadsBack (p : Population) (t : TeamId) (l : LearnerId) : Prop :=
  p.Lists t l ∧ p.LeadsTo l t

/-- What `q` has of edges: the members of `p`, and the actions of `p` but for one learner, which may
have been led to a team other than its parent. -/
structure Redirected (l : LearnerId) (parent : Option TeamId) (p q : Population) : Prop where
  settings : q.settings = p.settings
  lists : ∀ t k, q.Lists t k ↔ p.Lists t k
  leadsTo : ∀ k t, q.LeadsTo k t → p.LeadsTo k t ∨ k = l ∧ some t ≠ parent

/-- Another action changes nothing about a team but its count. -/
theorem lists_of_rewire_done {p q : Population} {l : LearnerId} {action : Action}
    (h : p.rewire l action = .done () q) (t : TeamId) (k : LearnerId) :
    q.Lists t k ↔ p.Lists t k := by
  obtain ⟨learner, -, -, -, rfl⟩ := exists_of_rewire_done h
  have hteams : (((p.releaseTarget learner.action).retainTarget action).modifyLearner l
      fun learner => { learner with action }).teams =
        ((p.releaseTarget learner.action).retainTarget action).teams := rfl
  simp only [Lists, hteams]
  rw [find?_retainTarget, find?_releaseTarget, Option.map_map]
  cases p.teams.find? t with
  | none => simp
  | some team =>
    simp only [Option.map_some, Option.some.injEq, exists_eq_left', Function.comp_apply]
    split <;> split <;> rfl

theorem leadsTo_of_rewire_done {p q : Population} {l : LearnerId} {t : TeamId}
    (h : p.rewire l (.team t) = .done () q) : q.LeadsTo l t := by
  obtain ⟨learner, hl, -, -, rfl⟩ := exists_of_rewire_done h
  refine ⟨{ learner with action := .team t }, ?_, rfl⟩
  rw [find?_modifyLearner, learners_retainTarget, learners_releaseTarget, hl]
  simp

namespace Redirected

variable {l : LearnerId} {parent : Option TeamId} {p q r : Population}

theorem refl (l : LearnerId) (parent : Option TeamId) (p : Population) : Redirected l parent p p :=
  ⟨rfl, fun _ _ => .rfl, fun _ _ h => .inl h⟩

theorem leadsBack (h : Redirected l parent p q) {t : TeamId} {k : LearnerId}
    (hback : q.LeadsBack t k) : p.LeadsBack t k ∨ k = l ∧ some t ≠ parent ∧ p.Lists t l := by
  obtain ⟨hlists, hleads⟩ := hback
  have hmember := (h.lists t k).1 hlists
  obtain hold | ⟨rfl, houtside⟩ := h.leadsTo k t hleads
  · exact .inl ⟨hmember, hold⟩
  · exact .inr ⟨rfl, houtside, hmember⟩

/-- A change of a learner that leaves its action alone. -/
theorem modifyLearner (h : Redirected l parent p q) (k : LearnerId) {f : Learner → Learner}
    (hf : ∀ learner, (f learner).action = learner.action) :
    Redirected l parent p (q.modifyLearner k f) where
  settings := h.settings
  lists := h.lists
  leadsTo := by
    rintro j t ⟨learner, hj, ha⟩
    rw [find?_modifyLearner] at hj
    obtain ⟨old, hold, rfl⟩ := Option.map_eq_some_iff.1 hj
    refine h.leadsTo j t ⟨old, hold, ?_⟩
    split at ha
    · rwa [hf] at ha
    · exact ha

theorem rewire (h : Redirected l parent p q) {action : Action} (hdone : q.rewire l action = .done () r)
    (houtside : action.target? = none ∨ action.target? ≠ parent) : Redirected l parent p r := by
  constructor
  case settings => exact (rewire_frame hdone).1.trans h.settings
  case lists => exact fun t k => (lists_of_rewire_done hdone t k).trans (h.lists t k)
  case leadsTo =>
    rintro k t ⟨new, hk, ha⟩
    obtain ⟨learner, hl, -, -, rfl⟩ := exists_of_rewire_done hdone
    rw [find?_modifyLearner, learners_retainTarget, learners_releaseTarget] at hk
    obtain ⟨old, hold, rfl⟩ := Option.map_eq_some_iff.1 hk
    split at ha
    · rename_i hkl
      obtain rfl : action = .team t := ha
      exact .inr ⟨hkl, houtside.resolve_left nofun⟩
    · exact h.leadsTo k t ⟨old, hold, ha⟩

end Redirected

theorem redirected_mutateAction (p : Population) (l : LearnerId) (parent : Option TeamId)
    (pool : List AtomicAction) :
    (p.mutateAction l parent pool).Ensures fun e => Redirected l parent p e.population := by
  have hrefl := Redirected.refl l parent p
  refine (mutateAction_meets_outside (E := fun _ => True) trivial (fun _ => hrefl) hrefl
    (fun action e q _ hrefused => ?_) fun action q houtside hdone => ?_).ensures
  · rw [eq_of_rewire_refused hrefused]
    exact hrefl
  · exact hrefl.rewire hdone houtside

theorem redirected_mutateLearner (p : Population) (l : LearnerId) (scope : MutationScope) :
    (p.mutateLearner l scope).Ensures fun e => Redirected l scope.parent p e.population := by
  have hmeets : (p.mutateLearner l scope).Meets (fun _ => True) (Edited.Satisfies
      (fun _ q => Redirected l scope.parent p q) fun _ q => Redirected l scope.parent p q) := by
    refine mutateLearner_meets (fun _ _ => .refl ..) (.refl ..) (fun _ _ h => h.settings)
      (fun _ _ _ h => h) fun corpus => ?_
    have hdead : ∀ (_ : MutationReport) q, Redirected l scope.parent p q →
        q.learners.find? l = none → Redirected l scope.parent p q := fun _ _ h _ => h
    refine forall_mem_roundSteps (fun hstep => .onCoin trivial hstep)
      (.mutateProgram hdead ?_) (fun _ => .toggleMode hdead ?_)
      (.changeAction_outside hdead trivial (fun _ _ _ h => h) ?_ ?_)
      (.changeGroup hdead trivial ?_) (.moveAddressing hdead ?_)
    · exact fun _ q learner h _ => Draw.meets_of_forall fun o => h.modifyLearner l fun _ => rfl
    · exact fun _ q learner h _ => h.modifyLearner l fun _ => rfl
    · intro _ q action e r h _ hrefused
      rwa [eq_of_rewire_refused hrefused]
    · exact fun _ q action r h houtside hdone => h.rewire hdone houtside
    · exact fun _ q learner group h _ _ => h.modifyLearner l fun _ => rfl
    · exact fun _ q learner h _ => Draw.meets_of_forall fun o => h.modifyLearner l fun _ => rfl
  exact hmeets.ensures.mono fun e he => by cases e <;> exact he

/-- Whatever population they start from, the mutation of an action and that of a learner leave no team
that lists a learner whose action is that same team, but for those that were there and for another
team than the parent that lists the mutated learner. So where the parent is the only team that lists
it, no team comes to lead back to itself. -/
theorem mutation_leadsBack (p : Population) (l : LearnerId) (parent : TeamId)
    (pool : List AtomicAction) (references : List LearnerId) :
    (p.mutateAction l (some parent) pool).Ensures (fun e => ∀ t k, e.population.LeadsBack t k →
      p.LeadsBack t k ∨ k = l ∧ t ≠ parent ∧ p.Lists t l) ∧
    (p.mutateLearner l ⟨some parent, pool, references⟩).Ensures fun e =>
      ∀ t k, e.population.LeadsBack t k → p.LeadsBack t k ∨ k = l ∧ t ≠ parent ∧ p.Lists t l := by
  have hback : ∀ {q : Population}, Redirected l (some parent) p q → ∀ t k, q.LeadsBack t k →
      p.LeadsBack t k ∨ k = l ∧ t ≠ parent ∧ p.Lists t l := by
    intro q hq t k h
    obtain h | ⟨hk, houtside, hlists⟩ := hq.leadsBack h
    · exact .inl h
    · exact .inr ⟨hk, fun ht => houtside (congrArg some ht), hlists⟩
  exact ⟨(p.redirected_mutateAction l _ pool).mono fun _ => hback,
    (p.redirected_mutateLearner l _).mono fun _ => hback⟩

/-- Where the coin can show false, some words propose any one of the candidates. -/
theorem exists_answers_propose {p : Population} {current : Action} {parent : Option TeamId}
    {t : TeamId} (pool : List AtomicAction) (hm : p.settings.mutation.check = .ok ())
    (hcoin : p.settings.mutation.actionAtomic.toFloat < 1.0) (hsize : p.teams.size < UInt64.size)
    (ht : t ∈ candidates p current parent) :
    ∃ words, (propose p current parent pool).Answers words (some (.team t)) := by
  have hlength : (candidates p current parent).length < UInt64.size :=
    (List.length_filter_le ..).trans_lt (by rwa [OrderedMap.keys, List.length_map])
  have hfalse := Draw.answers_coin_false (MutationSettings.isProbability_rate hm .actionAtomic) hcoin
  obtain ⟨x, hx⟩ := Draw.exists_answers_choose_mem ht hlength
  refine ⟨[0xffffffffffffffff] ++ [x], hfalse.bind ?_⟩
  rw [if_neg (by simpa using List.ne_nil_of_mem ht)]
  exact hx.then_pure

/-- Any other team that lists the learner can become its target, and then leads back to itself. -/
theorem exists_leadsBack {p : Population} {l : LearnerId} {learner : Learner} {t : TeamId}
    {parent : Option TeamId} (pool : List AtomicAction) (hm : p.settings.mutation.check = .ok ())
    (hcoin : p.settings.mutation.actionAtomic.toFloat < 1.0) (hsize : p.teams.size < UInt64.size)
    (hl : p.learners.find? l = some learner) (hcounts : p.Counts learner.action) (ht : p.Lists t l)
    (hcurrent : learner.action.target? ≠ some t) (hother : some t ≠ parent) :
    ∃ words q, (p.mutateAction l parent pool).Answers words (.done true q) ∧ q.LeadsBack t l := by
  obtain ⟨team, hteam, hmem⟩ := ht
  have hcandidate : t ∈ candidates p learner.action parent :=
    List.mem_filter.2 ⟨mem_keys_of_find? hteam, by simp [hother, hcurrent.symm]⟩
  obtain ⟨words, hpropose⟩ := exists_answers_propose pool hm hcoin hsize hcandidate
  have htargets : p.Targets (.team t) := fun u hu => by
    obtain rfl := Option.some.inj hu
    exact OrderedMap.contains_iff.2 ⟨team, hteam⟩
  have hrewire := p.rewire_of_counts hl htargets hcounts
  have hchanged : (Action.team t).agrees learner.action = false := by
    cases ha : learner.action with
    | atomic a => rfl
    | team u =>
      have hne : t ≠ u := fun h => hcurrent (by rw [ha, h]; rfl)
      exact decide_eq_false hne
  refine ⟨words ++ [], _, ?_, (lists_of_rewire_done hrewire t l).2 ⟨team, hteam, hmem⟩,
    leadsTo_of_rewire_done hrewire⟩
  simp only [mutateAction, hl]
  refine hpropose.bind ?_
  simp only [hchanged, hrewire]
  exact .pure _

/-- Two teams that list the one learner, whose action is a label. -/
def jointlyOwned : Population where
  settings := { mutation := { actionAtomic := 0.0 } }
  ranges := .ofSettings {}
  counters := ⟨0, 1, 2⟩
  teams := .ofList [(⟨0⟩, ⟨⟨0⟩, [⟨0⟩], 0, .empty⟩), (⟨1⟩, ⟨⟨1⟩, [⟨0⟩], 0, .empty⟩)]
  learners := .ofList [
    (⟨0⟩, ⟨⟨0⟩, ⟨⟨0⟩, [⟨1, 0, 0, 0, 0, 0⟩]⟩, .scalar, .full, 0, .atomic (.label 1), 2, 8, []⟩)]

/-- The guard knows the parent only: the learner becomes an edge to its other team. -/
theorem jointlyOwned_leadsBack :
    ∃ p₀, Population.new { mutation := { actionAtomic := 0.0 } } = .ok p₀ ∧
      Run (fun _ => True) p₀ jointlyOwned ∧ (∀ t l, ¬ jointlyOwned.LeadsBack t l) ∧
      jointlyOwned.Lists ⟨0⟩ ⟨0⟩ ∧
      ∃ words q, (jointlyOwned.mutateAction ⟨0⟩ (some ⟨0⟩) [.label 2]).Answers words (.done true q) ∧
        q.LeadsBack ⟨1⟩ ⟨0⟩ := by
  let s : Settings := { mutation := { actionAtomic := 0.0 } }
  let p₀ : Population := ⟨s, .ofSettings {}, .fresh, .empty, .empty⟩
  let source : Source := .ofWords []
  have hs : s.check = .ok () := by decide +kernel
  have h₀ : Population.new s = .ok p₀ := by
    simp only [Population.new, hs]
    rfl
  have hcommands : ∃ replies, Command.performAll [(.addTeam, source), (.addTeam, source),
      (.addLearnerWith ⟨⟨0⟩, [⟨1, 0, 0, 0, 0, 0⟩]⟩ (.atomic (.label 1)) .full 0, source),
      (.join ⟨0⟩ ⟨0⟩, source), (.join ⟨1⟩ ⟨0⟩, source)] p₀ = .ok (replies, jointlyOwned) := ⟨_, rfl⟩
  obtain ⟨replies, hcommands⟩ := hcommands
  have hfree : ∀ t l, ¬ jointlyOwned.LeadsBack t l := by
    rintro t l ⟨-, learner, hl, ha⟩
    have hmem := OrderedMap.mem_of_find?_ofList hl
    simp only [List.mem_singleton, Prod.mk.injEq] at hmem
    rw [hmem.2] at ha
    cases ha
  refine ⟨p₀, h₀, Run.start.performAll (fun _ _ => trivial) hcommands, hfree, ⟨_, rfl, by decide⟩, ?_⟩
  exact exists_leadsBack [.label 2] (Settings.check_mutation hs) (by decide) (by decide) rfl
    (by simp [Counts, Action.target?]) ⟨_, rfl, by decide⟩ (by decide) (by decide)

end TangledPrograms.Population
