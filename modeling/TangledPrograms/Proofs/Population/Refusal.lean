import TangledPrograms.Proofs.Population.Growth

/-!
# Refusals leave no trace

An edit checks all that it needs before it changes anything. So a refused edit leaves every node as it
was, on any population whatever, and an edit that succeeds moves every count by what it adds and
takes away, none of them below zero. The mutations and the recorded decision make several edits; on a
population that the recount accepts none of these can be refused halfway.
-/

namespace TangledPrograms

open Population (indicator)

def Command.edits : Command → Bool
  | .addLearnerWith .. | .addLearner _ | .cloneLearner _ | .join .. | .leave .. | .rewire ..
  | .removeTeam _ | .removeLearner _ | .commitScores .. => true
  | _ => false

def Command.takesProgram : Command → Bool
  | .addLearner _ | .cloneLearner _ => true
  | _ => false

def Command.revises : Command → Bool
  | .mutateAction .. | .mutateLearner .. | .actRecording .. => true
  | _ => false

def Population.targetOf (p : Population) (l : LearnerId) : Option TeamId :=
  (p.learners.find? l).bind fun learner => learner.action.target?

/-- By how much an edit that succeeds moves the count of a team. -/
def Command.teamShift (p : Population) (c : Command) (t : TeamId) : Int :=
  match c with
  | .addLearner action | .addLearnerWith _ action _ _ => indicator (action.target? = some t)
  | .cloneLearner parent => indicator (p.targetOf parent = some t)
  | .rewire l action => indicator (action.target? = some t) - indicator (p.targetOf l = some t)
  | .removeLearner l => -indicator (p.targetOf l = some t)
  | _ => 0

/-- By how much an edit that succeeds moves the count of a learner. -/
def Command.learnerShift (p : Population) (c : Command) (l : LearnerId) : Int :=
  match c with
  | .join _ k => indicator (l = k)
  | .leave _ k => -indicator (l = k)
  | .removeTeam t => -indicator ((p.teams.find? t).any fun team => team.members.contains l)
  | _ => 0

def Reply.newborn? : Reply → Option LearnerId
  | .newLearner l => some l
  | _ => none

namespace Population

/-- The nodes of `p` that are left in `q` have their counts moved by the given shifts; a new learner
may have taken the place of one of them. -/
structure Moved (p q : Population) (newborn : Option LearnerId) (dt : TeamId → Int)
    (dl : LearnerId → Int) : Prop where
  team : ∀ t before after, p.teams.find? t = some before → q.teams.find? t = some after →
    (after.references : Int) = before.references + dt t
  learner : ∀ l before after, newborn ≠ some l → p.learners.find? l = some before →
    q.learners.find? l = some after → (after.references : Int) = before.references + dl l

section edits

variable {p : Population}

theorem Moved.refl (p : Population) (newborn : Option LearnerId) :
    Moved p p newborn (fun _ => 0) fun _ => 0 := by
  constructor
  · intro t before after hb ha
    rw [← Option.some.inj (hb.symm.trans ha), Int.add_zero]
  · intro l before after _ hb ha
    rw [← Option.some.inj (hb.symm.trans ha), Int.add_zero]

theorem moved_fresh (p : Population) (action : Action) (counters : IdCounters) (l : LearnerId)
    (learner : Learner) :
    Moved p { p.retainTarget action with counters, learners := p.learners.insert l learner } (some l)
      (fun t => indicator (action.target? = some t)) fun _ => 0 := by
  constructor
  · intro t before after hb ha
    rw [find?_retainTarget, hb] at ha
    obtain rfl := Option.some.inj ha
    simp only [indicator]
    split <;> simp
  · intro k before after hk hb ha
    have hkl : k ≠ l := fun h => hk (h ▸ rfl)
    rw [OrderedMap.find?_insert_of_ne _ _ hkl, hb] at ha
    rw [← Option.some.inj ha, Int.add_zero]

theorem moved_join (p : Population) (t : TeamId) (l : LearnerId) :
    Moved p ((p.modifyTeam t fun team =>
        { team with members := team.members ++ [l] }).retainLearner l) none (fun _ => 0)
      fun k => indicator (k = l) := by
  constructor
  · intro u before after hb ha
    change ((p.modifyTeam t _).teams.find? u) = some after at ha
    rw [find?_modifyTeam, hb] at ha
    obtain rfl := Option.some.inj ha
    split <;> simp
  · intro k before after _ hb ha
    rw [retainLearner, find?_modifyLearner] at ha
    change (p.learners.find? k).map _ = some after at ha
    rw [hb] at ha
    obtain rfl := Option.some.inj ha
    simp only [indicator]
    split <;> simp

theorem moved_leave {t : TeamId} {l : LearnerId} {learner : Learner}
    (hl : p.learners.find? l = some learner) (hpos : learner.references ≠ 0) :
    Moved p ((p.modifyTeam t fun team =>
        { team with members := team.members.erase l }).releaseLearner l) none (fun _ => 0)
      fun k => -indicator (k = l) := by
  constructor
  · intro u before after hb ha
    change ((p.modifyTeam t _).teams.find? u) = some after at ha
    rw [find?_modifyTeam, hb] at ha
    obtain rfl := Option.some.inj ha
    split <;> simp
  · intro k before after _ hb ha
    rw [releaseLearner, find?_modifyLearner] at ha
    change (p.learners.find? k).map _ = some after at ha
    rw [hb] at ha
    obtain rfl := Option.some.inj ha
    simp only [indicator]
    split
    · rename_i hkl
      subst hkl
      obtain rfl := Option.some.inj (hl.symm.trans hb)
      simp only
      omega
    · simp

theorem moved_releaseTarget {a : Action} (h : p.Counts a) :
    Moved p (p.releaseTarget a) none (fun t => -indicator (a.target? = some t)) fun _ => 0 := by
  constructor
  · intro t before after hb ha
    rw [find?_releaseTarget, hb] at ha
    obtain rfl := Option.some.inj ha
    simp only [indicator]
    split
    · rename_i htarget
      obtain ⟨team, hteam, hpos⟩ := h t htarget
      obtain rfl := Option.some.inj (hb.symm.trans hteam)
      simp only
      omega
    · simp
  · intro l before after _ hb ha
    rw [learners_releaseTarget, hb] at ha
    rw [← Option.some.inj ha, Int.add_zero]

theorem moved_rewire {l : LearnerId} {learner : Learner} {action : Action}
    (hold : p.Counts learner.action) :
    Moved p (((p.releaseTarget learner.action).retainTarget action).modifyLearner l fun learner =>
        { learner with action }) none
      (fun t => indicator (action.target? = some t) - indicator (learner.action.target? = some t))
      fun _ => 0 := by
  constructor
  · intro t before after hb ha
    change ((p.releaseTarget learner.action).retainTarget action).teams.find? t = some after at ha
    have hreleased := find?_releaseTarget p learner.action t
    rw [hb, Option.map_some] at hreleased
    have hmoved := (moved_releaseTarget hold).team t before _ hb hreleased
    rw [find?_retainTarget, hreleased] at ha
    obtain rfl := Option.some.inj ha
    simp only [indicator] at hmoved ⊢
    split
    · simp only [Nat.cast_add, Nat.cast_one]
      omega
    · omega
  · intro k before after _ hb ha
    rw [find?_modifyLearner, learners_retainTarget, learners_releaseTarget, hb] at ha
    obtain rfl := Option.some.inj ha
    split <;> simp

theorem moved_removeTeam (t : TeamId) {team : Team} (hnodup : team.members.Nodup)
    (hpos : ∀ l ∈ team.members, ∃ learner, p.learners.find? l = some learner ∧
      learner.references ≠ 0) :
    Moved p (team.members.foldl releaseLearner { p with teams := p.teams.erase t }) none (fun _ => 0)
      fun l => -indicator (l ∈ team.members) := by
  constructor
  · intro u before after hb ha
    rw [foldl_releaseLearner] at ha
    change (p.teams.erase t).find? u = some after at ha
    rw [OrderedMap.find?_erase] at ha
    split at ha
    · cases ha
    · rw [← Option.some.inj (hb.symm.trans ha), Int.add_zero]
  · intro l before after _ hb ha
    rw [find?_foldl_releaseLearner] at ha
    change (p.learners.find? l).map _ = some after at ha
    rw [hb] at ha
    obtain rfl := Option.some.inj ha
    simp only [indicator, hnodup.count]
    split
    · rename_i hmem
      obtain ⟨learner, hl, hcount⟩ := hpos l hmem
      obtain rfl := Option.some.inj (hb.symm.trans hl)
      omega
    · simp

theorem moved_removeLearner {l : LearnerId} {learner : Learner} (hold : p.Counts learner.action) :
    Moved p (releaseTarget { p with learners := p.learners.erase l } learner.action) none
      (fun t => -indicator (learner.action.target? = some t)) fun _ => 0 := by
  have hmoved := moved_releaseTarget (p := { p with learners := p.learners.erase l })
    (a := learner.action) hold
  constructor
  · exact hmoved.team
  · intro k before after _ hb ha
    rw [learners_releaseTarget] at ha
    change (p.learners.erase l).find? k = some after at ha
    rw [OrderedMap.find?_erase] at ha
    split at ha
    · cases ha
    · rw [← Option.some.inj (hb.symm.trans ha), Int.add_zero]

theorem moved_commitScores (p : Population) (t : TeamId) (scores : Scores) :
    Moved p (p.modifyTeam t fun team => { team with scores := team.scores.insertAll scores.entries })
      none (fun _ => 0) fun _ => 0 := by
  constructor
  · intro u before after hb ha
    rw [find?_modifyTeam, hb] at ha
    obtain rfl := Option.some.inj ha
    split <;> simp
  · exact (Moved.refl p none).learner

end edits

section revisions

variable {p q : Population} {l : LearnerId}

theorem actionTargets_modifyLearner (p : Population) (l : LearnerId) {f : Learner → Learner}
    (hf : ∀ learner, (f learner).action = learner.action) :
    (p.modifyLearner l f).actionTargets = p.actionTargets := by
  have hvalues := OrderedMap.flatMap_values_modify p.learners l (f := f)
    (g := fun learner => learner.action.target?.toList) fun learner => by rw [hf]
  simpa [actionTargets, modifyLearner, List.filterMap_eq_flatMap_toList] using hvalues

/-- A change of a learner that its number, its action and its count survive. -/
theorem Filed.modifyLearner (h : Filed p) (l : LearnerId) {f : Learner → Learner}
    (hf : ∀ learner, (f learner).id = learner.id ∧ (f learner).action = learner.action ∧
      (f learner).references = learner.references) : Filed (p.modifyLearner l f) := by
  have htargets := p.actionTargets_modifyLearner l fun learner => (hf learner).2.1
  constructor
  · rw [htargets]
    exact h.target_live
  · intro k hk
    rw [Population.modifyLearner, OrderedMap.contains_modify]
    exact h.member_live k hk
  · rw [htargets]
    exact h.team
  · intro k learner hk
    rw [find?_modifyLearner, Option.map_eq_some_iff] at hk
    obtain ⟨before, hbefore, rfl⟩ := hk
    split
    · rw [(hf before).1, (hf before).2.2]
      exact h.learner k before hbefore
    · exact h.learner k before hbefore

/-- Every edge to a team counts. -/
theorem Filed.counts (h : Filed p) {learner : Learner} (hl : p.learners.find? l = some learner) :
    p.Counts learner.action := by
  intro t ht
  have hmem : t ∈ p.actionTargets := mem_actionTargets_iff.2 ⟨l, learner, hl, ht⟩
  obtain ⟨team, hteam⟩ := OrderedMap.contains_iff.1 (h.target_live t hmem)
  refine ⟨team, hteam, ?_⟩
  rw [← (h.team t team hteam).2]
  exact Nat.ne_of_gt (List.count_pos_iff.2 hmem)

theorem memberships_releaseTarget (p : Population) (a : Action) :
    (p.releaseTarget a).teams.values.flatMap Team.members = p.memberships := by
  simp only [releaseTarget]
  cases a.target? with
  | none => rfl
  | some t => exact OrderedMap.flatMap_values_modify _ _ fun _ => rfl

/-- A new action moves one edge. -/
theorem count_actionTargets_modifyLearner {learner : Learner}
    (hl : p.learners.find? l = some learner) (action : Action) (t : TeamId) :
    ((p.modifyLearner l fun learner => { learner with action }).actionTargets.count t : Int) =
      p.actionTargets.count t + indicator (action.target? = some t) -
        indicator (learner.action.target? = some t) := by
  have hcount := OrderedMap.countP_modify (fun learner : Learner => learner.action.target? = some t)
    (fun learner => { learner with action }) hl
  rw [count_actionTargets, count_actionTargets]
  simp only [edgesTo, modifyLearner, indicator, decide_eq_true_eq] at hcount ⊢
  split at hcount <;> split at hcount <;> simp_all
  all_goals omega

/-- A new action leaves the counts exact, for it moves them just as it moves its edge. -/
theorem Filed.rewire (h : Filed p) {action : Action} (hq : p.rewire l action = .done () q) :
    Filed q := by
  obtain ⟨learner, hl, hnew, hold, hq⟩ := exists_of_rewire_done hq
  have hteams : q.teams = ((p.releaseTarget learner.action).retainTarget action).teams := by
    rw [hq]
    rfl
  have hlearners : q.learners =
      (p.modifyLearner l fun learner => { learner with action }).learners := by
    rw [hq]
    simp [Population.modifyLearner]
  have hmembers : q.memberships = p.memberships := by
    rw [← p.memberships_releaseTarget learner.action, memberships, hteams]
    exact memberships_retainTarget _ action
  have hcount : ∀ t, (q.actionTargets.count t : Int) = p.actionTargets.count t +
      indicator (action.target? = some t) - indicator (learner.action.target? = some t) := by
    intro t
    rw [← count_actionTargets_modifyLearner hl action t, actionTargets, hlearners]
    rfl
  have hmoved : Moved p q none (fun t => indicator (action.target? = some t) -
      indicator (learner.action.target? = some t)) fun _ => 0 := by
    rw [hq]
    exact moved_rewire hold
  constructor
  · intro t ht
    rw [hteams, contains_retainTarget, contains_releaseTarget]
    by_cases hmem : t ∈ p.actionTargets
    · exact h.target_live t hmem
    · apply hnew t
      by_contra hne
      have hpos := List.count_pos_iff.2 ht
      have hcount := hcount t
      simp only [List.count_eq_zero.2 hmem, indicator, if_neg hne] at hcount
      split at hcount <;> omega
  · intro k hk
    rw [hmembers] at hk
    rw [hlearners, Population.modifyLearner, OrderedMap.contains_modify]
    exact h.member_live k hk
  · intro t after ha
    have hfind := ha
    rw [hteams, find?_retainTarget, find?_releaseTarget, Option.map_map,
      Option.map_eq_some_iff] at hfind
    obtain ⟨before, hb, hafter⟩ := hfind
    have hteam := h.team t before hb
    have hreferences := hmoved.team t before after hb ha
    have hcount := hcount t
    refine ⟨?_, by omega⟩
    rw [← hafter, ← hteam.1]
    simp only [Function.comp_apply]
    split <;> split <;> rfl
  · intro k after ha
    rw [hmembers]
    rw [hlearners, find?_modifyLearner, Option.map_eq_some_iff] at ha
    obtain ⟨before, hb, rfl⟩ := ha
    split <;> exact h.learner k before hb

theorem Filed.mutateAction (h : Filed p) (l : LearnerId) (parent : Option TeamId)
    (pool : List AtomicAction) : (p.mutateAction l parent pool).Ensures
      (Edited.Satisfies (fun _ q => Filed q) fun _ q => q = p) := by
  refine (mutateAction_meets (E := fun _ => True)
    (P := Edited.Satisfies (fun _ q => Filed q) fun _ q => q = p) trivial (fun _ => rfl) h ?_ ?_).ensures
  · exact fun action e q _ hq => eq_of_rewire_refused hq
  · exact fun action q hq => h.rewire hq

/-- What the steps of a round keep of a population with a live learner. -/
structure Filed.Holding (p : Population) (l : LearnerId) (q : Population) : Prop where
  filed : Filed q
  settings : q.settings = p.settings
  live : q.learners.contains l = true

theorem Filed.Holding.modifyLearner (h : Filed.Holding p l q) {f : Learner → Learner}
    (hf : ∀ learner, (f learner).id = learner.id ∧ (f learner).action = learner.action ∧
      (f learner).references = learner.references) : Filed.Holding p l (q.modifyLearner l f) :=
  ⟨h.filed.modifyLearner l hf, h.settings, (OrderedMap.contains_modify ..).trans h.live⟩

/-- With the learner live no step is refused: nothing but a corpus that cannot be made stops it. -/
theorem Filed.mutateLearner_of_live (h : Filed p) (hlive : p.learners.contains l = true)
    {scope : MutationScope} {R : PopulationError → Population → Prop}
    (hR : ∀ e, p.uniquenessCorpus l scope.references = .error e → R e p) :
    (p.mutateLearner l scope).Ensures (Edited.Satisfies (fun _ q => Filed.Holding p l q) R) := by
  have hdead : ∀ (report : MutationReport) (q : Population), Filed.Holding p l q →
      q.learners.find? l = none → R (.unknownLearner l) q := by
    intro report q hq hl
    obtain ⟨learner, hlearner⟩ := OrderedMap.contains_iff.1 hq.live
    rw [hl] at hlearner
    cases hlearner
  refine (mutateLearner_meets (E := fun _ => True) hR ⟨h, rfl, hlive⟩ (fun _ _ hq => hq.settings)
    (fun _ _ _ hq => hq) fun corpus => ?_).ensures
  refine forall_mem_roundSteps (RoundStep.Meets.onCoin trivial)
    (.mutateProgram hdead fun _ _ _ hq _ => Draw.meets_of_forall fun _ =>
      hq.modifyLearner fun _ => ⟨rfl, rfl, rfl⟩)
    (fun _ => .toggleMode hdead fun _ _ _ hq _ => hq.modifyLearner fun _ => ⟨rfl, rfl, rfl⟩)
    (.changeAction hdead trivial (fun _ _ _ hq => hq) ?_ ?_)
    (.changeGroup hdead trivial fun _ _ _ _ hq _ _ => hq.modifyLearner fun _ => ⟨rfl, rfl, rfl⟩)
    (.moveAddressing hdead fun _ _ _ hq _ => Draw.meets_of_forall fun _ =>
      hq.modifyLearner fun _ => ⟨rfl, rfl, rfl⟩)
  · intro report q action e q' hq hnew hrewire
    obtain ⟨learner, hl⟩ := OrderedMap.contains_iff.1 hq.live
    rw [q.rewire_of_counts hl hnew (hq.filed.counts hl)] at hrewire
    cases hrewire
  · intro report q action q' hq hrewire
    obtain ⟨hsettings, hcontains⟩ := rewire_frame hrewire
    exact ⟨hq.filed.rewire hrewire, hsettings.trans hq.settings, (hcontains l).trans hq.live⟩

theorem Filed.mutateLearner (h : Filed p) (l : LearnerId) (scope : MutationScope) :
    (p.mutateLearner l scope).Ensures (Edited.Satisfies (fun _ q => Filed q) fun _ q => q = p) := by
  -- Without the learner nothing ever changes; with it no step is refused.
  cases hlive : p.learners.contains l with
  | false =>
    have hnone : p.learners.find? l = none := by simpa [OrderedMap.contains] using hlive
    have hsame : (p.mutateLearner l scope).Meets (fun _ => True)
        (Edited.Satisfies (fun _ q => q = p) fun _ q => q = p) := by
      refine mutateLearner_meets (fun _ _ => rfl) rfl (fun _ q hq => by rw [hq]) (fun _ _ _ hq => hq)
        fun corpus => ?_
      have hdead : ∀ (report : MutationReport) (q : Population), q = p →
          q.learners.find? l = none → q = p := fun _ _ hq _ => hq
      have hnever : ∀ {q : Population} {learner : Learner}, q = p →
          q.learners.find? l ≠ some learner := by
        rintro q learner rfl hl
        rw [hnone] at hl
        cases hl
      refine forall_mem_roundSteps (RoundStep.Meets.onCoin trivial)
        (.mutateProgram hdead fun _ _ _ hq hl => (hnever hq hl).elim)
        (fun _ => .toggleMode hdead fun _ _ _ hq hl => (hnever hq hl).elim)
        (.changeAction hdead trivial (fun _ _ _ hq => hq) ?_ ?_)
        (.changeGroup hdead trivial fun _ _ _ _ hq hl => (hnever hq hl).elim)
        (.moveAddressing hdead fun _ _ _ hq hl => (hnever hq hl).elim)
      · exact fun _ _ _ _ _ hq _ hrewire => (eq_of_rewire_refused hrewire).trans hq
      · intro report q action q' hq hrewire
        obtain ⟨learner, hl, -⟩ := exists_of_rewire_done hrewire
        exact (hnever hq hl).elim
    refine hsame.ensures.mono fun e he => ?_
    cases e with
    | done report q => exact (show q = p from he) ▸ h
    | refused e q => exact he
  | true =>
    refine (h.mutateLearner_of_live (R := fun _ q => q = p) hlive fun _ _ => rfl).mono fun e he => ?_
    cases e with
    | done report q => exact he.filed
    | refused e q => exact he

theorem Filed.rememberAll (h : Filed p) (input : Observation) (ls : List LearnerId) :
    Filed (p.rememberAll input ls) := by
  induction ls generalizing p with
  | nil => exact h
  | cons l ls ih =>
    refine ih (h.modifyLearner l fun learner => ?_)
    obtain ⟨memory, hremember⟩ := learner.remember_eq input p.settings.stateHistory
    rw [hremember]
    exact ⟨rfl, rfl, rfl⟩

end revisions

section commands

variable {p : Population}

/-- The edit is refused without a change, or it moves the counts by the given shifts. -/
abbrev Settles {α : Type} (p : Population) (newborn : α → Option LearnerId) (dt : TeamId → Int)
    (dl : LearnerId → Int) (e : Edited α) : Prop :=
  e.Satisfies (fun a q => Moved p q (newborn a) dt dl) fun _ q => q = p

theorem settles_addLearnerWith (p : Population) (program : Program) (action : Action)
    (addressing : Addressing) (group : Nat) :
    Settles p some (fun t => indicator (action.target? = some t)) (fun _ => 0)
      (p.addLearnerWith program action addressing group) := by
  obtain ⟨e, he⟩ | ⟨-, he⟩ := p.addLearnerWith_cases program action addressing group
  · rw [he]
    rfl
  · rw [he]
    exact moved_fresh p action _ _ _

theorem settles_addLearnerLike (p : Population) (program : Program) (action : Action)
    (addressing : Addressing) (group : Nat) (f : Learner → Learner) :
    Settles p some (fun t => indicator (action.target? = some t)) (fun _ => 0)
      (p.addLearnerLike program action addressing group f) := by
  obtain ⟨e, he⟩ | ⟨-, he⟩ := p.addLearnerLike_cases program action addressing group f
  · rw [he]
    rfl
  · rw [he]
    exact moved_fresh p action _ _ _

theorem settles_addLearner (p : Population) (action : Action) :
    (p.addLearner action).Ensures (Settles { p with counters := p.counters.takeProgram.2 } some
      (fun t => indicator (action.target? = some t)) fun _ => 0) := by
  refine (createProgram_ensures p).bind fun r hr => ?_
  obtain ⟨program, p'⟩ := r
  subst hr
  refine .after fun addressing => .after fun group => ?_
  dsimp only
  split <;> exact .after fun vector => .pure (settles_addLearnerLike _ _ _ _ _ _)

theorem settles_join (p : Population) (t : TeamId) (l : LearnerId) :
    Settles p (fun _ => none) (fun _ => 0) (fun k => indicator (k = l)) (p.join t l) := by
  obtain ⟨e, he⟩ | ⟨team, learner, -, -, -, he⟩ := p.join_cases t l
  · rw [he]
    rfl
  · rw [he]
    exact moved_join p t l

theorem settles_leave (p : Population) (t : TeamId) (l : LearnerId) :
    Settles p (fun _ => none) (fun _ => 0) (fun k => -indicator (k = l)) (p.leave t l) := by
  obtain ⟨e, he⟩ | ⟨team, learner, -, hl, -, hpos, he⟩ := p.leave_cases t l
  · rw [he]
    rfl
  · rw [he]
    exact moved_leave hl hpos

theorem settles_rewire (p : Population) (l : LearnerId) (action : Action) :
    Settles p (fun _ => none)
      (fun t => indicator (action.target? = some t) - indicator (p.targetOf l = some t)) (fun _ => 0)
      (p.rewire l action) := by
  obtain ⟨e, he⟩ | ⟨learner, hl, -, hold, he⟩ := p.rewire_cases l action
  · rw [he]
    rfl
  · rw [he, targetOf, hl]
    exact moved_rewire hold

theorem settles_removeTeam (hnodup : ∀ t team, p.teams.find? t = some team → team.members.Nodup)
    (t : TeamId) :
    Settles p (fun _ => none) (fun _ => 0)
      (fun l => -indicator ((p.teams.find? t).any fun team => team.members.contains l))
      (p.removeTeam t) := by
  obtain ⟨e, he⟩ | ⟨team, ht, -, hpos, he⟩ := p.removeTeam_cases t
  · rw [he]
    rfl
  · have hmoved := moved_removeTeam t (hnodup t team ht) hpos
    rw [he, ht]
    simp only [Option.any_some, List.contains_iff_mem]
    exact hmoved

theorem settles_removeLearner (p : Population) (l : LearnerId) :
    Settles p (fun _ => none) (fun t => -indicator (p.targetOf l = some t)) (fun _ => 0)
      (p.removeLearner l) := by
  obtain ⟨e, he⟩ | ⟨learner, hl, -, hold, he⟩ := p.removeLearner_cases l
  · rw [he]
    rfl
  · rw [he, targetOf, hl]
    exact moved_removeLearner hold

theorem settles_commitScores (p : Population) (t : TeamId) (scores : Scores) :
    Settles p (fun _ => none) (fun _ => 0) (fun _ => 0) (p.commitScores t scores) := by
  obtain ⟨e, he⟩ | he := p.commitScores_cases t scores
  · rw [he]
    rfl
  · rw [he]
    exact moved_commitScores p t scores

/-- A refused edit leaves the population, but perhaps with a program number less to give out; one that
succeeds moves the counts as it should. -/
structure Traceless (p : Population) (c : Command) (reply : Reply) (q : Population) : Prop where
  refused : reply.refusal? ≠ none →
    q = p ∨ c.takesProgram = true ∧ q = { p with counters := p.counters.takeProgram.2 }
  settled : reply.refusal? = none → Moved p q reply.newborn? (c.teamShift p) (c.learnerShift p)

namespace Traceless

variable {α : Type} {answer : α → Reply} {newborn : α → Option LearnerId} {c : Command}
  (hanswer : ∀ a, (answer a).refusal? = none ∧ (answer a).newborn? = newborn a)
include hanswer

theorem of_settles {e : Edited α}
    (h : Settles p newborn (c.teamShift p) (c.learnerShift p) e) :
    Traceless p c (e.reply answer).1 (e.reply answer).2 := by
  cases e with
  | done a q =>
    obtain ⟨hdone, hnewborn⟩ := hanswer a
    refine ⟨fun hrefused => absurd hdone hrefused, fun _ => ?_⟩
    simp only [Edited.reply]
    rw [hnewborn]
    exact h
  | refused e q => exact ⟨fun _ => .inl h, fun h => by cases h⟩

/-- An edit after a program number has been taken. -/
theorem of_takeProgram (hc : c.takesProgram = true) {e : Edited α}
    (h : Settles { p with counters := p.counters.takeProgram.2 } newborn (c.teamShift p)
      (c.learnerShift p) e) : Traceless p c (e.reply answer).1 (e.reply answer).2 := by
  cases e with
  | done a q =>
    obtain ⟨hdone, hnewborn⟩ := hanswer a
    refine ⟨fun hrefused => absurd hdone hrefused, fun _ => ?_⟩
    simp only [Edited.reply]
    rw [hnewborn]
    exact ⟨h.team, h.learner⟩
  | refused e q => exact ⟨fun _ => .inr ⟨hc, h⟩, fun h => by cases h⟩

end Traceless

theorem edit_traceless {c : Command} (hc : c.edits = true)
    (hnodup : ∀ t team, p.teams.find? t = some team → team.members.Nodup) :
    (c.perform p).Ensures fun o => Traceless p c o.1 o.2 := by
  cases c with
  | addLearnerWith program action addressing group =>
    exact .pure (.of_settles (fun _ => ⟨rfl, rfl⟩)
      (settles_addLearnerWith p program action addressing group))
  | addLearner action =>
    exact (settles_addLearner p action).bind fun e he =>
      .pure (.of_takeProgram (fun _ => ⟨rfl, rfl⟩) rfl he)
  | cloneLearner parent =>
    refine .pure ?_
    cases hl : p.learners.find? parent with
    | none =>
      simp only [cloneLearner, hl]
      exact ⟨fun _ => .inl rfl, fun h => by cases h⟩
    | some l =>
      have hsettles := settles_addLearnerLike { p with counters := p.counters.takeProgram.2 }
        (l.program.offspring p.counters.takeProgram.1) l.action l.addressing l.group
        fun child => { child with mode := l.mode, registers := l.registers }
      have hshift : Command.teamShift p (.cloneLearner parent) =
          fun t => indicator (l.action.target? = some t) := by
        funext t
        simp only [Command.teamShift, targetOf, hl, Option.bind_some]
      simp only [cloneLearner, hl]
      refine .of_takeProgram (fun _ => ⟨rfl, rfl⟩) rfl ?_
      rw [hshift]
      exact hsettles
  | join t l => exact .pure (.of_settles (fun _ => ⟨rfl, rfl⟩) (settles_join p t l))
  | leave t l => exact .pure (.of_settles (fun _ => ⟨rfl, rfl⟩) (settles_leave p t l))
  | rewire l action => exact .pure (.of_settles (fun _ => ⟨rfl, rfl⟩) (settles_rewire p l action))
  | removeTeam t => exact .pure (.of_settles (fun _ => ⟨rfl, rfl⟩) (settles_removeTeam hnodup t))
  | removeLearner l => exact .pure (.of_settles (fun _ => ⟨rfl, rfl⟩) (settles_removeLearner p l))
  | commitScores t scores =>
    exact .pure (.of_settles (fun _ => ⟨rfl, rfl⟩) (settles_commitScores p t scores))
  | _ => cases hc

theorem Filed.revision {c : Command} (hc : c.revises = true) (h : Filed p) :
    (c.perform p).Ensures fun o =>
      (o.1.refusal? ≠ none → o.2 = p) ∧ (o.1.refusal? = none → Filed o.2) := by
  have hreply : ∀ {α : Type} {answer : α → Reply} {e : Edited α}, (∀ a, (answer a).refusal? = none) →
      e.Satisfies (fun _ q => Filed q) (fun _ q => q = p) →
      (pure (e.reply answer) : Draw (Reply × Population)).Ensures fun o =>
        (o.1.refusal? ≠ none → o.2 = p) ∧ (o.1.refusal? = none → Filed o.2) := by
    intro α answer e hanswer he
    cases e with
    | done a q => exact .pure ⟨fun hrefused => absurd (hanswer a) hrefused, fun _ => he⟩
    | refused e q => exact .pure ⟨fun _ => he, fun h => by cases h⟩
  cases c with
  | mutateAction l parent pool =>
    exact (h.mutateAction l parent pool).bind fun e he => hreply (fun _ => rfl) he
  | mutateLearner l scope =>
    exact (h.mutateLearner l scope).bind fun e he => hreply (fun _ => rfl) he
  | actRecording t input bank =>
    have hok : ∀ (d : Decision) a, d.result = .ok a → (Reply.decided d).refusal? = none := by
      rintro ⟨_, _, _, _⟩ a rfl
      rfl
    have herror : ∀ (d : Decision) e, d.result = .error e → (Reply.decided d).refusal? = some e := by
      rintro ⟨_, _, _, _⟩ e rfl
      rfl
    refine .pure ?_
    unfold Population.actRecording
    dsimp only
    split
    · rename_i a ha
      refine ⟨fun hrefused => ?_, fun _ => h.rememberAll input _⟩
      exact absurd (hok _ a ha) hrefused
    · rename_i e he
      refine ⟨fun _ => rfl, fun hnone => ?_⟩
      cases (herror _ e he).symm.trans hnone
  | _ => cases hc

end commands

/-- A call that is refused leaves all nodes as they were, and one that succeeds finds every count that
it lowers above zero: of a single edit on any population with members listed once, and of a mutation or
a recorded decision on one that the recount accepts. -/
theorem refusals_leave_no_trace {p q : Population} {c : Command} {reply : Reply}
    {source source' : Source} (h : c.perform p source = .ok ((reply, q), source')) :
    (c.edits = true → (∀ t team, p.teams.find? t = some team → team.members.Nodup) →
      Traceless p c reply q) ∧
    (c.revises = true → p.Keyed → p.checkReferences = .ok () →
      (reply.refusal? ≠ none → q = p) ∧ (reply.refusal? = none → q.checkReferences = .ok ())) := by
  constructor
  · intro hc hnodup
    exact edit_traceless hc hnodup _ _ _ h
  · intro hc hkeyed hp
    obtain ⟨hrefused, hdone⟩ := (hkeyed.filed hp).revision hc _ _ _ h
    exact ⟨hrefused, fun hnone => (hdone hnone).checkReferences⟩

/-- A team whose one learner has it for its action; the learner's count is as given. -/
def recorded (count : Nat) : Population where
  settings := {}
  ranges := .ofSettings {}
  counters := ⟨1, 1, 1⟩
  teams := .ofList [(⟨0⟩, ⟨⟨0⟩, [⟨0⟩], 1, .empty⟩)]
  learners := .ofList [(⟨0⟩,
    ⟨⟨0⟩, ⟨⟨0⟩, [⟨1, 0, 0, 0, 0, 0⟩]⟩, .scalar, .full, 0, .team ⟨0⟩, count, 8, []⟩)]

/-- On a wrong count the learner cannot leave; on the right one it can, and a mutation with a reference
learner that is not live is refused. -/
theorem recorded_leaves_no_trace :
    (∃ q, (Command.leave ⟨0⟩ ⟨0⟩).perform (recorded 0) (.ofWords []) =
        .ok ((.refused (.referenceUnderflow (.learner ⟨0⟩)), q), .ofWords []) ∧ q = recorded 0) ∧
    (∃ q, (Command.leave ⟨0⟩ ⟨0⟩).perform (recorded 1) (.ofWords []) =
        .ok ((.done, q), .ofWords []) ∧ Traceless (recorded 1) (.leave ⟨0⟩ ⟨0⟩) .done q) ∧
    (recorded 1).Keyed ∧ (recorded 1).checkReferences = .ok () ∧
    ∃ q, (Command.mutateLearner ⟨0⟩ ⟨none, [], [⟨9⟩]⟩).perform (recorded 1) (.ofWords []) =
        .ok ((.refused (.unknownLearner ⟨9⟩), q), .ofWords []) ∧ q = recorded 1 := by
  have hnodup : ∀ count t team, (recorded count).teams.find? t = some team → team.members.Nodup := by
    intro count t team ht
    obtain ⟨-, rfl⟩ : t = ⟨0⟩ ∧ team = ⟨⟨0⟩, [⟨0⟩], 1, .empty⟩ := by
      simpa using List.mem_singleton.1 (OrderedMap.find?_eq_some_iff.1 ht)
    exact List.nodup_singleton _
  have hkeyed : (recorded 1).Keyed := by decide
  have hcheck : (recorded 1).checkReferences = .ok () := rfl
  have hwrong : (Command.leave ⟨0⟩ ⟨0⟩).perform (recorded 0) (.ofWords []) =
    .ok ((.refused (.referenceUnderflow (.learner ⟨0⟩)), recorded 0), .ofWords []) := rfl
  have hright : (Command.leave ⟨0⟩ ⟨0⟩).perform (recorded 1) (.ofWords []) =
    .ok ((.done, ((recorded 1).leave ⟨0⟩ ⟨0⟩).population), .ofWords []) := rfl
  have hlost : (Command.mutateLearner ⟨0⟩ ⟨none, [], [⟨9⟩]⟩).perform (recorded 1) (.ofWords []) =
    .ok ((.refused (.unknownLearner ⟨9⟩), recorded 1), .ofWords []) := rfl
  refine ⟨⟨_, hwrong, ?_⟩, ⟨_, hright, ?_⟩, hkeyed, hcheck, ⟨_, hlost, ?_⟩⟩
  · have htrace := (refusals_leave_no_trace hwrong).1 rfl (hnodup 0)
    exact (htrace.refused nofun).resolve_right fun h => absurd h.1 (by decide)
  · exact (refusals_leave_no_trace hright).1 rfl (hnodup 1)
  · exact ((refusals_leave_no_trace hlost).2 rfl hkeyed hcheck).1 nofun

end Population

end TangledPrograms
