import TangledPrograms.Proofs.Population.Provenance
import TangledPrograms.Proofs.Population.Redirection

/-!
# Vectors in the unit cube

The coordinates of a proposed vector that are not moved and cut are as they were, so that they lie in
the unit interval because those of the population and of the pool do. The mutation of a learner changes
the action at most once, for one that was proposed somewhere in the stream; so the vectors of the
population stay in the unit cube, and one that is not drawn from the pool is as long as the one in its
place.
-/

namespace TangledPrograms

open Draw

namespace ActionMutation

variable {p : Population} {m : MutationSettings} {pool : List AtomicAction} {current : Action}
  {parent : Option TeamId} {s s' : Source} {u v : List Binary64}

/-- From here an atomic action is proposed, and a vector that is there is not swapped for one of a pool
of vectors. -/
structure KeepsVector (p : Population) (current : Action) (parent : Option TeamId)
    (pool : List AtomicAction) (s : Source) : Prop where
  vectors : AllVectors pool
  vector : ∃ v, current = .atomic (.vector v)
  coins : ∃ fires s₁ s₂, coin p.settings.mutation.actionAtomic.toFloat s = .ok (fires, s₁) ∧
    (fires = true ∨ ¬ ∃ t, Eligible p current parent t) ∧
    coin p.settings.mutation.swapVector.toFloat s₁ = .ok (false, s₂)

theorem candidates_empty_or {fires : Bool} (h : fires = true ∨ ¬ ∃ t, Eligible p current parent t) :
    (fires || (candidates p current parent).isEmpty) = true := by
  rwa [Bool.or_eq_true, List.isEmpty_iff, candidates_eq_nil_iff]

theorem proposeVector_kept {s₁ : Source} (h : coin m.swapVector.toFloat s = .ok (false, s₁)) :
    proposeVector m pool (.atomic (.vector v)) s =
      (if !v.isEmpty then do pure (some (.vector (← nudgeAll m v)))
        else pure (some (.vector v)) : Draw (Option AtomicAction)) s₁ := by
  rw [proposeVector, bind_apply, h]
  rfl

/-- Nothing of the pool is looked at: any other pool of vectors leads to the same proposal. -/
theorem KeepsVector.propose_eq (h : KeepsVector p current parent pool s) {pool' : List AtomicAction}
    (hpool' : AllVectors pool') :
    propose p current parent pool' s = propose p current parent pool s := by
  obtain ⟨fires, s₁, s₂, hfires, hatomic, hswap⟩ := h.coins
  obtain ⟨v, rfl⟩ := h.vector
  have hpool := h.vectors
  rw [propose, propose, bind_apply, bind_apply, hfires]
  simp only [Except.bind]
  rw [if_pos (candidates_empty_or hatomic), if_pos (candidates_empty_or hatomic), bind_apply,
    bind_apply, proposeAtomic_of_vectors hpool.1 hpool.2, proposeAtomic_of_vectors hpool'.1 hpool'.2,
    proposeVector_kept hswap, proposeVector_kept hswap]

/-- Where a proposed vector comes from. -/
theorem vector_of_propose (h : propose p current parent pool s = .ok (some (.atomic (.vector u)), s')) :
    ∃ v, (Moved (NoiseFrom p.settings.mutation s) v u ∨ u = v) ∧
      ((KeepsVector p current parent pool s ∧ current = .atomic (.vector v)) ∨
        (¬ KeepsVector p current parent pool s ∧ .vector v ∈ pool)) := by
  obtain ⟨fires, s₁, hfires, hatomic, hteam⟩ := propose_cases h
  by_cases hregime : fires = true ∨ ¬ ∃ t, Eligible p current parent t
  · obtain ⟨o, ho, hproposal⟩ := hatomic hregime
    obtain ⟨a, rfl, ha⟩ := Option.map_eq_some_iff.1 hproposal.symm
    cases ha
    by_cases hvectors : AllVectors pool
    · rw [proposeAtomic_of_vectors hvectors.1 hvectors.2] at ho
      obtain ⟨_, hu, hproposed⟩ := vectorProposed_of_proposeVector hvectors ho
      cases hu
      have hmono : ∀ {v}, Moved (NoiseFrom p.settings.mutation s₁) v u →
          Moved (NoiseFrom p.settings.mutation s) v u := fun hmoved =>
        hmoved.mono fun y hy => hy.of_reaches (Advances.coin _ _ _ _ hfires)
      -- Whether the vector is kept can be told from the two coins.
      have hkept : ∀ {swap s₂}, coin p.settings.mutation.swapVector.toFloat s₁ = .ok (swap, s₂) →
          (KeepsVector p current parent pool s ↔
            swap = false ∧ ∃ w, current = .atomic (.vector w)) := by
        intro swap s₂ hswap
        constructor
        · rintro ⟨-, hown, fires', s₁', s₂', hfires', -, hswap'⟩
          cases hfires.symm.trans hfires'
          cases hswap.symm.trans hswap'
          exact ⟨rfl, hown⟩
        · rintro ⟨rfl, hown⟩
          exact ⟨hvectors, hown, fires, _, _, hfires, hregime, hswap⟩
      cases hproposed with
      | @swapped v _ hswap hmem hmoved =>
        refine ⟨v, hmoved.imp_left hmono, .inr ⟨fun hkeeps => ?_, hmem⟩⟩
        cases ((hkept hswap).1 hkeeps).1
      | @kept v _ hswap hcurrent hmoved =>
        exact ⟨v, hmoved.imp hmono And.left, .inl ⟨(hkept hswap).2 ⟨rfl, v, hcurrent⟩, hcurrent⟩⟩
      | @fresh v _ hswap hcurrent hmem hmoved =>
        refine ⟨v, hmoved.imp hmono And.left, .inr ⟨fun hkeeps => ?_, hmem⟩⟩
        obtain ⟨w, hw⟩ := ((hkept hswap).1 hkeeps).2
        exact hcurrent w hw
    · have hmem := ((proposeAtomic_spec hvectors _ _ _ ho).1 _ rfl).1
      exact ⟨u, .inr rfl, .inr ⟨fun hkeeps => hvectors hkeeps.vectors, hmem⟩⟩
  · obtain ⟨hfires', heligible⟩ := not_or.1 hregime
    obtain ⟨t, -, ht⟩ := hteam (Bool.eq_false_iff.2 hfires') (not_not.1 heligible)
    cases ht

theorem inUnit_of_propose (hclear : ClearNoise p.settings.mutation s) (hcurrent : current.InUnit)
    (hpool : ∀ a ∈ pool, a.InUnit) {action : Action}
    (h : propose p current parent pool s = .ok (some action, s')) : action.InUnit := by
  rcases action with (n | u) | t
  · trivial
  · obtain ⟨v, hmoved, hv⟩ := vector_of_propose h
    have hstart : ∀ x ∈ v, x.InUnit := by
      obtain ⟨-, rfl⟩ | ⟨-, hmem⟩ := hv
      · exact hcurrent
      · exact hpool _ hmem
    obtain hmoved | rfl := hmoved
    · exact hmoved.inUnit hclear hstart
    · exact hstart
  · trivial

end ActionMutation

namespace Population

open ActionMutation

def action? (p : Population) (l : LearnerId) : Option Action :=
  (p.learners.find? l).map Learner.action

/-- All vectors of the population lie in the unit cube. -/
def UnitVectors (p : Population) : Prop := ∀ l action, p.action? l = some action → action.InUnit

/-- What the mutation of one action leads to: no other action is another one, and this one only if it
was told so, for one that was proposed from one of the sources in `places`. -/
structure Traced (p : Population) (l : LearnerId) (parent : Option TeamId)
    (pool : List AtomicAction) (places : Source → Prop) (changed : Bool) (q : Population) : Prop where
  settings : q.settings = p.settings
  teams : changed = false → q.teams = p.teams
  kept : ∀ k, (k = l → changed = false) → q.action? k = p.action? k
  proposed : changed = true → ∃ current action s s', places s ∧ p.action? l = some current ∧
    propose p current parent pool s = .ok (some action, s') ∧ q.action? l = some action

variable {p q : Population} {l : LearnerId} {parent : Option TeamId} {pool : List AtomicAction}
  {places : Source → Prop} {s : Source} {changed : Bool}

theorem propose_congr (hsettings : q.settings = p.settings) (hteams : q.teams = p.teams)
    (current : Action) (parent : Option TeamId) (pool : List AtomicAction) :
    propose q current parent pool = propose p current parent pool := by
  rw [propose, propose, hsettings, candidates, candidates, hteams]

theorem action?_modifyLearner (q : Population) (k : LearnerId) {f : Learner → Learner}
    (hf : ∀ learner, (f learner).action = learner.action) (j : LearnerId) :
    (q.modifyLearner k f).action? j = q.action? j := by
  rw [action?, find?_modifyLearner, Option.map_map, action?]
  congr 1
  funext learner
  simp only [Function.comp_apply]
  split
  · exact hf learner
  · rfl

namespace Traced

theorem start : Traced p l parent pool places false p := ⟨rfl, fun _ => rfl, fun _ _ => rfl, nofun⟩

theorem modifyLearner (h : Traced p l parent pool places changed q) (k : LearnerId)
    {f : Learner → Learner} (hf : ∀ learner, (f learner).action = learner.action) :
    Traced p l parent pool places changed (q.modifyLearner k f) where
  settings := h.settings
  teams := h.teams
  kept j hj := (action?_modifyLearner q k hf j).trans (h.kept j hj)
  proposed hchanged := by
    rw [action?_modifyLearner q k hf l]
    exact h.proposed hchanged

/-- The first change of the action. -/
theorem rewire (h : Traced p l parent pool places false q) {learner : Learner} {action : Action}
    {s' : Source} {r : Population} (hl : q.learners.find? l = some learner) (hs : places s)
    (hpropose : propose q learner.action parent pool s = .ok (some action, s'))
    (hdone : q.rewire l action = .done () r) : Traced p l parent pool places true r := by
  obtain ⟨old, hold, -, -, rfl⟩ := exists_of_rewire_done hdone
  obtain rfl := Option.some.inj (hl.symm.trans hold)
  have hown : p.action? l = some learner.action := by
    rw [← h.kept l fun _ => rfl, action?, hl, Option.map_some]
  refine ⟨?_, nofun, fun k hk => ?_, fun _ => ?_⟩
  · simpa [Population.modifyLearner] using h.settings
  · have hne : k ≠ l := fun hkl => absurd (hk hkl) (by decide)
    rw [action?, find?_modifyLearner, learners_retainTarget, learners_releaseTarget]
    simp only [hne, if_false, Option.map_id']
    exact h.kept k fun _ => rfl
  · rw [propose_congr h.settings (h.teams rfl)] at hpropose
    refine ⟨learner.action, action, s, s', hs, hown, hpropose, ?_⟩
    rw [action?, find?_modifyLearner, learners_retainTarget, learners_releaseTarget, hl]
    simp

theorem unitVectors (h : Traced p l parent pool places changed q) (hp : p.UnitVectors)
    (hclear : ∀ s, places s → ClearNoise p.settings.mutation s) (hpool : ∀ a ∈ pool, a.InUnit) :
    q.UnitVectors := by
  intro k action haction
  by_cases hk : k = l → changed = false
  · rw [h.kept k hk] at haction
    exact hp k action haction
  · obtain ⟨rfl, hchanged⟩ := Classical.not_imp.1 hk
    obtain ⟨current, _, s, s', hs, hcurrent, hpropose, hnew⟩ :=
      h.proposed (Bool.eq_true_of_not_eq_false hchanged)
    obtain rfl := Option.some.inj (hnew.symm.trans haction)
    exact inUnit_of_propose (hclear s hs) (hp k current hcurrent) hpool hpropose

end Traced

/-- A vector that takes the place of another action was proposed from one of the sources. If the coins
kept the vector that was there, which any other pool of vectors would have led to as well, it is as long
as that one; and else it is as long as one of the pool. -/
def Resized (p : Population) (l : LearnerId) (parent : Option TeamId) (pool : List AtomicAction)
    (places : Source → Prop) (q : Population) : Prop :=
  ∀ u, q.action? l = some (.atomic (.vector u)) → q.action? l ≠ p.action? l →
    ∃ current s s', places s ∧ p.action? l = some current ∧
      propose p current parent pool s = .ok (some (.atomic (.vector u)), s') ∧
      (KeepsVector p current parent pool s →
        (∃ v, current = .atomic (.vector v) ∧ u.length = v.length) ∧
        ∀ pool', AllVectors pool' →
          propose p current parent pool' s = .ok (some (.atomic (.vector u)), s')) ∧
      (¬ KeepsVector p current parent pool s → ∃ v, .vector v ∈ pool ∧ u.length = v.length)

theorem Traced.resized (h : Traced p l parent pool places changed q) :
    Resized p l parent pool places q := by
  intro u hu hother
  have hchanged : changed = true := by
    by_contra hkept
    exact hother (h.kept l fun _ => Bool.eq_false_iff.2 hkept)
  obtain ⟨current, _, s, s', hs, hcurrent, hpropose, hnew⟩ := h.proposed hchanged
  obtain rfl := Option.some.inj (hnew.symm.trans hu)
  obtain ⟨v, hmoved, hv⟩ := vector_of_propose hpropose
  have hlength : u.length = v.length := by
    obtain hmoved | rfl := hmoved
    · exact hmoved.length_eq
    · rfl
  refine ⟨current, s, s', hs, hcurrent, hpropose, fun hkeeps => ⟨?_, fun pool' hpool' => ?_⟩,
    fun hdrawn => ?_⟩
  · obtain ⟨-, rfl⟩ := hv.resolve_right fun h => h.1 hkeeps
    exact ⟨v, rfl, hlength⟩
  · rw [hkeeps.propose_eq hpool']
    exact hpropose
  · obtain ⟨-, hmem⟩ := hv.resolve_left fun h => hdrawn h.1
    exact ⟨v, hmem, hlength⟩

/-- What is left of one mutation of the action is traced, whether it was refused or not. -/
theorem Traced.mutateAction (h : Traced p l parent pool places false q) (hs : places s)
    {e : Edited Bool} {s' : Source} (hrun : q.mutateAction l parent pool s = .ok (e, s')) :
    e.Satisfies (fun changed r => Traced p l parent pool places changed r)
      fun _ r => Traced p l parent pool places false r := by
  rw [Population.mutateAction] at hrun
  cases hl : q.learners.find? l with
  | none =>
    rw [hl] at hrun
    cases hrun
    exact h
  | some learner =>
    rw [hl] at hrun
    obtain ⟨o, s₁, hpropose, hrun⟩ := exists_of_bind hrun
    cases o with
    | none =>
      cases hrun
      exact h
    | some action =>
      dsimp only at hrun
      split at hrun
      · cases hrun
        exact h
      · cases hrewire : q.rewire l action with
        | done _ r =>
          rw [hrewire] at hrun
          cases hrun
          exact h.rewire hl hs hpropose hrewire
        | refused reason r =>
          obtain rfl := eq_of_rewire_refused hrewire
          rw [hrewire] at hrun
          cases hrun
          exact h

section rounds

/-- What is left of the learner's action goes with what is reported of it, which `A` allows. -/
abbrev TracedWhile (A : Bool → Prop) (p : Population) (l : LearnerId) (scope : MutationScope)
    (s : Source) (report : MutationReport) (q : Population) : Prop :=
  A report.actionChanged ∧ Traced p l scope.parent scope.pool s.Reaches report.actionChanged q

/-- A refusal leaves a population that is traced as well. -/
abbrev TracedRefusal (p : Population) (l : LearnerId) (scope : MutationScope) (s : Source)
    (_ : PopulationError) (q : Population) : Prop :=
  ∃ changed, Traced p l scope.parent scope.pool s.Reaches changed q

variable {scope : MutationScope} {corpus : Option UniquenessCorpus} {settings : Settings}

theorem leadsFrom_otherSteps (A : Bool → Prop) :
    ∀ step ∈ programSteps settings l corpus ++ placeSteps settings l,
      step.LeadsFrom s (TracedWhile A p l scope s) (TracedWhile A p l scope s)
        (TracedRefusal p l scope s) := by
  intro step hstep
  refine .of_meets (meets_otherSteps (fun report q h _ => ⟨_, h.2⟩) ?_ step hstep)
    (advances_otherSteps step hstep)
  exact fun report q _ _ _ _ f h hf => ⟨h.1, h.2.modifyLearner l hf⟩

theorem leadsFrom_changeAction : (changeAction l scope).LeadsFrom s
    (TracedWhile (· = false) p l scope s) (TracedWhile (fun _ => True) p l scope s)
    (TracedRefusal p l scope s) := by
  rintro report q ⟨hstill, h⟩
  rw [hstill] at h
  have hmutated : (q.mutateAction l scope.parent scope.pool).EnsuresFrom s (Edited.Satisfies
      (fun changed r => Traced p l scope.parent scope.pool s.Reaches changed r)
      fun _ r => Traced p l scope.parent scope.pool s.Reaches false r) := by
    refine ((q.advances_mutateAction l scope.parent scope.pool).ensuresFrom_self s).mono ?_
    exact fun e ⟨s₁, s', hs₁, he⟩ => h.mutateAction hs₁ he
  refine hmutated.bind fun e he => ?_
  cases e with
  | done changed r =>
    refine .pure ⟨trivial, ?_⟩
    change Traced p l scope.parent scope.pool s.Reaches (report.actionChanged || changed) r
    rwa [hstill, Bool.false_or]
  | refused e r => exact .pure ⟨false, he⟩

/-- In a round the action is changed at most once. -/
theorem leadsFrom_round : (inOrder (roundSteps settings l scope corpus)).LeadsFrom s
    (TracedWhile (· = false) p l scope s) (TracedWhile (fun _ => True) p l scope s)
    (TracedRefusal p l scope s) := by
  have hother : ∀ A, ∀ step ∈ programSteps settings l corpus ++ placeSteps settings l,
      step.LeadsFrom s (TracedWhile A p l scope s) (TracedWhile A p l scope s)
        (TracedRefusal p l scope s) := leadsFrom_otherSteps
  rw [roundSteps_eq]
  refine .append (.inOrder fun step hstep => ?_) (.inOrder_cons (.onCoin ?_ leadsFrom_changeAction _)
    (.inOrder fun step hstep => ?_))
  · exact hother _ step (List.mem_append_left _ hstep)
  · exact fun report q h => ⟨trivial, h.2⟩
  · exact hother _ step (List.mem_append_right _ hstep)

/-- Nor is it in all rounds together, since a round that changes it is the last one. -/
theorem leadsFrom_mutationRounds (rounds : ℕ) : (mutationRounds l scope corpus rounds).LeadsFrom s
    (TracedWhile (· = false) p l scope s) (TracedWhile (fun _ => True) p l scope s)
    (TracedRefusal p l scope s) := by
  induction rounds with
  | zero => exact fun report q h => .pure ⟨trivial, h.2⟩
  | succ rounds ih =>
    intro report q h
    rw [mutationRounds]
    refine (leadsFrom_round { report with rounds := report.rounds + 1 } q h).bind fun e he => ?_
    cases e with
    | refused e r => exact .pure he
    | done report r =>
      dsimp only
      split
      · exact .pure he
      · rename_i hnone
        exact ih report r
          ⟨MutationReport.actionChanged_of_not_changed (Bool.eq_false_iff.2 hnone), he.2⟩

theorem traced_mutateLearner {e : Edited MutationReport} {s' : Source}
    (h : p.mutateLearner l scope s = .ok (e, s')) :
    ∃ changed, Traced p l scope.parent scope.pool s.Reaches changed e.population := by
  have hrounds : ∀ corpus rounds, mutationRounds l scope corpus rounds {} p s = .ok (e, s') →
      ∃ changed, Traced p l scope.parent scope.pool s.Reaches changed e.population := by
    intro corpus rounds h
    have he := (leadsFrom_mutationRounds rounds {} p ⟨rfl, .start⟩).here h
    cases e with
    | done report q => exact ⟨_, he.2⟩
    | refused e q => exact he
  rw [mutateLearner] at h
  split at h
  · exact hrounds none _ h
  · cases hcorpus : p.uniquenessCorpus l scope.references with
    | error reason =>
      rw [hcorpus] at h
      cases h
      exact ⟨false, .start⟩
    | ok corpus =>
      rw [hcorpus] at h
      exact hrounds _ _ h

theorem traced_mutateAction {e : Edited Bool} {s' : Source}
    (h : p.mutateAction l parent pool s = .ok (e, s')) :
    ∃ changed, Traced p l parent pool (· = s) changed e.population := by
  have hstart : Traced p l parent pool (· = s) false p := .start
  have he := hstart.mutateAction rfl h
  cases e with
  | done changed q => exact ⟨changed, he⟩
  | refused e q => exact ⟨false, he⟩

end rounds

end Population

open ActionMutation Population

/-- The mutation of an action or a learner with a pool whose vectors lie in the unit cube. -/
def Command.MutatesInUnit : Command → Prop
  | .mutateAction _ _ pool => ∀ a ∈ pool, a.InUnit
  | .mutateLearner _ scope => ∀ a ∈ scope.pool, a.InUnit
  | _ => False

theorem Edited.reply_snd {α : Type} (answer : α → Reply) (e : Edited α) :
    (e.reply answer).2 = e.population := by
  cases e <;> rfl

/-- One mutation. -/
theorem Command.MutatesInUnit.perform {c : Command} {p q : Population} {reply : Reply}
    {s s' : Source} (hc : c.MutatesInUnit) (hp : p.UnitVectors)
    (hclear : ClearNoise p.settings.mutation s) (h : c.perform p s = .ok ((reply, q), s')) :
    q.UnitVectors ∧ q.settings = p.settings := by
  cases c with
  | mutateAction l parent pool =>
    obtain ⟨e, s₁, he, hreply⟩ := exists_of_bind h
    obtain ⟨changed, htraced⟩ := traced_mutateAction he
    have hq : e.population = q := (e.reply_snd .changed).symm.trans
      (congrArg (fun r => r.1.2) (Except.ok.inj hreply))
    rw [hq] at htraced
    exact ⟨htraced.unitVectors hp (fun _ hs => hs ▸ hclear) hc, htraced.settings⟩
  | mutateLearner l scope =>
    obtain ⟨e, s₁, he, hreply⟩ := exists_of_bind h
    obtain ⟨changed, htraced⟩ := traced_mutateLearner he
    have hq : e.population = q := (e.reply_snd .mutated).symm.trans
      (congrArg (fun r => r.1.2) (Except.ok.inj hreply))
    rw [hq] at htraced
    exact ⟨htraced.unitVectors hp (fun _ hs => hclear.of_reaches hs) hc, htraced.settings⟩
  | _ => exact hc.elim

/-- All of them, one after the other. -/
theorem unitVectors_performAll : ∀ {commands : List (Command × Source)} {p q : Population}
    {replies : List (Reply × Source)},
    p.UnitVectors →
    (∀ c ∈ commands, c.1.MutatesInUnit ∧ ClearNoise p.settings.mutation c.2) →
    Command.performAll commands p = .ok (replies, q) → q.UnitVectors
  | [], _, _, _, hp, _, h => by
    cases h
    exact hp
  | (c, s) :: rest, p, q, _, hp, hcommands, h => by
    obtain ⟨⟨hc, hclear⟩, hrest⟩ := List.forall_mem_cons.1 hcommands
    obtain ⟨⟨⟨reply, p₁⟩, s₁⟩, hperform, h⟩ := ok_of_bind h
    obtain ⟨⟨replies, p₂⟩, hall, h⟩ := ok_of_bind h
    cases h
    obtain ⟨hp₁, hsettings⟩ := hc.perform hp hclear hperform
    rw [← hsettings] at hrest
    exact unitVectors_performAll hp₁ hrest hall

/-- Mutations of actions and learners, in any order and with whatever pools, keep all vectors in the
unit cube if those of the population and of the pools lie there and no noise on their streams is NaN.
Where such a mutation puts a vector that is not drawn from the pool, the vector is as long as the action
in its place. -/
theorem mutations_keep_unitVectors :
    (∀ (commands : List (Command × Source)) (p q : Population) (replies : List (Reply × Source)),
      p.UnitVectors →
      (∀ c ∈ commands, c.1.MutatesInUnit ∧ ClearNoise p.settings.mutation c.2) →
      Command.performAll commands p = .ok (replies, q) → q.UnitVectors) ∧
    (∀ (p : Population) l parent pool s e s', p.mutateAction l parent pool s = .ok (e, s') →
      Resized p l parent pool (· = s) e.population) ∧
    ∀ (p : Population) l scope s e s', p.mutateLearner l scope s = .ok (e, s') →
      Resized p l scope.parent scope.pool s.Reaches e.population := by
  refine ⟨fun _ _ _ _ => unitVectors_performAll, fun p l parent pool s e s' h => ?_,
    fun p l scope s e s' h => ?_⟩
  · obtain ⟨changed, htraced⟩ := traced_mutateAction h
    exact htraced.resized
  · obtain ⟨changed, htraced⟩ := traced_mutateLearner h
    exact htraced.resized

/-- A stream of one word: the coins show a quarter, and the noise is negative. -/
def steady : Source := ⟨fun _ => 0x4000000000000001, 0, 12⟩

/-- Settings under which the steady stream changes the action of `vectorHolder`, without a swap. -/
def nudging : MutationSettings :=
  { program := 0.0, action := 1.0, swapVector := 0.0, changeVector := 0.0 }

theorem clearNoise_steady : ClearNoise nudging steady := by
  rintro y ⟨s₁, s', ⟨n, rfl⟩, hy⟩
  have hunder : (Normal.symmetric 0x4000000000000001 *
      Normal.edge (Normal.layer 0x4000000000000001).castSucc).abs <
      Normal.edge (Normal.layer 0x4000000000000001).succ := by decide +kernel
  rw [deviate_of_constant hunder (fun _ => rfl) hy]
  decide +kernel

theorem unitVectors_vectorHolder (m : MutationSettings) : (vectorHolder m).UnitVectors := by
  intro l action haction
  obtain ⟨learner, hl, rfl⟩ := Option.map_eq_some_iff.1 haction
  cases List.mem_singleton.1 (OrderedMap.find?_eq_some_iff.1 hl)
  have hhalf : Binary64.InUnit 0.5 := ⟨by decide, by decide⟩
  exact List.forall_mem_singleton.2 hhalf

def nudges : List (Command × Source) :=
  [(.mutateAction ⟨0⟩ none [.vector [0.25]], steady),
    (.mutateLearner ⟨0⟩ ⟨none, [.vector [0.25, 1.0]], []⟩, steady)]

theorem keepsVector_steady : KeepsVector (vectorHolder nudging) (.atomic (.vector [0.5])) none
    [.vector [0.25, 1.0]] steady where
  vectors := ⟨by simp, by simp [AtomicAction.isVector]⟩
  vector := ⟨_, rfl⟩
  coins := by
    have hswap : decide (fraction 0x4000000000000001 < nudging.swapVector.toFloat) = false := by
      decide +kernel
    have hcoin : ∀ rate n, n < 12 → coin rate ⟨steady.word, n, 12⟩ =
        .ok (decide (fraction 0x4000000000000001 < rate), ⟨steady.word, n + 1, 12⟩) := by
      intro rate n hn
      rw [coin, bind_apply, unit, bind_apply, Draw.word, if_pos hn]
      rfl
    refine ⟨_, _, _, hcoin _ 0 (by omega), .inr ?_, hswap ▸ hcoin _ 1 (by omega)⟩
    rintro ⟨t, ht⟩
    cases ht.live

theorem nudges_keep_unitVectors :
    (∃ replies q, Command.performAll nudges (vectorHolder nudging) = .ok (replies, q) ∧
      q.action? ⟨0⟩ ≠ (vectorHolder nudging).action? ⟨0⟩ ∧
      (vectorHolder nudging).UnitVectors ∧ q.UnitVectors) ∧
    ∃ e s' u, (vectorHolder nudging).mutateAction ⟨0⟩ none [.vector [0.25, 1.0]] steady = .ok (e, s') ∧
      e.population.action? ⟨0⟩ = some (.atomic (.vector u)) ∧ u ≠ [0.5] ∧ u.length = 1 := by
  have hquarter : Binary64.InUnit 0.25 := ⟨by decide, by decide⟩
  have hone : Binary64.InUnit 1.0 := ⟨by decide, by decide⟩
  constructor
  · have hdone : (Command.performAll nudges (vectorHolder nudging)).toOption.any (fun r =>
        decide (r.2.action? ⟨0⟩ ≠ (vectorHolder nudging).action? ⟨0⟩)) = true := by decide +kernel
    cases hrun : Command.performAll nudges (vectorHolder nudging) with
    | error h =>
      rw [hrun] at hdone
      cases hdone
    | ok r =>
      rw [hrun] at hdone
      have hp := unitVectors_vectorHolder nudging
      refine ⟨r.1, r.2, rfl, of_decide_eq_true hdone, hp, ?_⟩
      refine mutations_keep_unitVectors.1 nudges _ _ r.1 hp ?_ hrun
      simp only [nudges, List.forall_mem_cons, List.not_mem_nil, false_implies, implies_true, and_true]
      refine ⟨⟨?_, clearNoise_steady⟩, ?_, clearNoise_steady⟩
      · exact List.forall_mem_singleton.2 (List.forall_mem_singleton.2 hquarter)
      · refine List.forall_mem_singleton.2 (List.forall_mem_cons.2 ⟨hquarter, ?_⟩)
        exact List.forall_mem_singleton.2 hone
  · -- the half becomes a number near 0.2259
    have hdone : ((vectorHolder nudging).mutateAction ⟨0⟩ none [.vector [0.25, 1.0]]
        steady).toOption.map (fun r => r.1.population.action? ⟨0⟩) =
          some (some (.atomic (.vector [⟨4597308313856297412⟩]))) := by decide +kernel
    cases hrun : (vectorHolder nudging).mutateAction ⟨0⟩ none [.vector [0.25, 1.0]] steady with
    | error h =>
      rw [hrun] at hdone
      cases hdone
    | ok r =>
      rw [hrun] at hdone
      have hu : r.1.population.action? ⟨0⟩ = _ := Option.some.inj hdone
      have hhalf : (vectorHolder nudging).action? ⟨0⟩ = some (.atomic (.vector [0.5])) := rfl
      have hother : (vectorHolder nudging).action? ⟨0⟩ ≠
          some (.atomic (.vector [⟨4597308313856297412⟩])) := by decide
      obtain ⟨current, s, s', rfl, hcurrent, -, hkept, -⟩ :=
        mutations_keep_unitVectors.2.1 _ _ _ _ _ r.1 r.2 hrun _ hu fun h => hother (h.symm.trans hu)
      cases hcurrent
      obtain ⟨⟨v, hv, hlength⟩, -⟩ := hkept keepsVector_steady
      cases hv
      exact ⟨r.1, r.2, _, rfl, hu, by decide, hlength⟩

end TangledPrograms
