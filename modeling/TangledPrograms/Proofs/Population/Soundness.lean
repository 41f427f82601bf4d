import TangledPrograms.Proofs.Population.Balance
import TangledPrograms.Proofs.Population.Rounds

/-!
# Commands keep populations sound

Every command leaves a sound population sound, whether it is refused or not; it hands out numbers that
no node has had, and it never finds a count too low.
-/

namespace TangledPrograms

open Population (Balanced Sound indicator)

/-- What an edit leaves of a sound population `p`: another one, with counters no lower; and if it is
refused, it is not because of a count. -/
structure Edited.Keeps {α : Type} (p : Population) (e : Edited α) : Prop where
  sound : Sound e.population
  nextTeam_le : p.counters.nextTeam ≤ e.population.counters.nextTeam
  nextLearner_le : p.counters.nextLearner ≤ e.population.counters.nextLearner
  counted : ∀ node, e.result ≠ .error (.referenceUnderflow node)

namespace Edited.Keeps

variable {α β : Type} {p q : Population}

theorem done {a : α} (h : Sound q) (hc : q.counters = p.counters) : Keeps p (Edited.done a q) :=
  ⟨h, Nat.le_of_eq (congrArg _ hc.symm), Nat.le_of_eq (congrArg _ hc.symm), fun _ e => by cases e⟩

theorem refused {e : PopulationError} (h : Sound p) (he : ∀ node, e ≠ .referenceUnderflow node) :
    Keeps p (Edited.refused e p : Edited α) :=
  ⟨h, Nat.le_refl _, Nat.le_refl _, fun node h => he node (Except.error.inj h)⟩

theorem of_done {a : α} (h : Keeps p (Edited.done a q)) (b : β) : Keeps p (Edited.done b q) :=
  ⟨h.sound, h.nextTeam_le, h.nextLearner_le, fun _ e => by cases e⟩

theorem of_refused {e : PopulationError} (h : Keeps p (Edited.refused e q : Edited α)) :
    Keeps p (Edited.refused e q : Edited β) :=
  ⟨h.sound, h.nextTeam_le, h.nextLearner_le,
    fun node he => h.counted node (congrArg _ (Except.error.inj he))⟩

/-- A change after an edit. -/
theorem trans {e : Edited α} {e' : Edited β} (h : Keeps p e) (h' : Keeps e.population e') :
    Keeps p e' :=
  ⟨h'.sound, Nat.le_trans h.nextTeam_le h'.nextTeam_le,
    Nat.le_trans h.nextLearner_le h'.nextLearner_le, h'.counted⟩

end Edited.Keeps

namespace Population

variable {p : Population}

namespace Sound

/-- A live learner's target counts it. -/
theorem pos_of_target (h : Sound p) {l : LearnerId} {learner : Learner} {t : TeamId} {team : Team}
    (hl : p.learners.find? l = some learner) (ht : learner.action.target? = some t)
    (hteam : p.teams.find? t = some team) : 0 < team.references := by
  have hcount := (h.team t team hteam).count
  have hpos : 0 < p.edgesTo t :=
    List.countP_pos_iff.2 ⟨learner, OrderedMap.mem_values_iff.2 ⟨l, hl⟩, by simpa using ht⟩
  omega

/-- A live team's members count it. -/
theorem pos_of_member (h : Sound p) {t : TeamId} {team : Team} {l : LearnerId} {learner : Learner}
    (ht : p.teams.find? t = some team) (hmem : l ∈ team.members)
    (hl : p.learners.find? l = some learner) : 0 < learner.references := by
  have hcount := (h.learner l learner hl).count
  have hpos : 0 < p.listings l :=
    List.countP_pos_iff.2 ⟨team, OrderedMap.mem_values_iff.2 ⟨t, ht⟩, by simpa using hmem⟩
  omega

theorem takeProgram (h : Sound p) : Sound { p with counters := p.counters.takeProgram.2 } where
  team t team ht :=
    let hb := h.team t team ht
    ⟨hb.id_eq, hb.id_lt, hb.nodup, hb.live, hb.count⟩
  learner l learner hl :=
    let hb := h.learner l learner hl
    ⟨hb.id_eq, hb.id_lt, hb.live, hb.count⟩

theorem addTeam (h : Sound p) : Sound p.addTeam.2 := h.insertTeam ⟨p.counters.nextTeam⟩ rfl

end Sound

private theorem contains_of_target_obstacle {teams : OrderedMap TeamId Team} {a : Action}
    (h : (a.target?.bind fun t => if teams.contains t then none else some t) = none) (t : TeamId)
    (ht : a.target? = some t) : teams.contains t = true := by
  rw [ht, Option.bind_some] at h
  by_contra hn
  rw [if_neg hn] at h
  cases h

theorem keeps_addLearnerWith (h : Sound p) (program : Program) (action : Action)
    (addressing : Addressing) (group : Nat) :
    (p.addLearnerWith program action addressing group).Keeps p ∧
      ∀ l q, p.addLearnerWith program action addressing group = .done l q →
        l.index = p.counters.nextLearner := by
  simp only [addLearnerWith]
  split
  · exact ⟨.refused h (by simp), fun _ _ e => by cases e⟩
  · rename_i hlive
    have hinsert := (h.retainTarget action).insertLearner ⟨p.counters.nextLearner⟩
      { id := ⟨p.counters.nextLearner⟩, program, mode := .scalar, addressing, group, action
        references := 0, registers := (p.retainTarget action).settings.registers.count, memory := [] }
      (by rw [counters_retainTarget]) rfl rfl
      fun t ht => by
        rw [contains_retainTarget]
        exact contains_of_target_obstacle hlive t ht
    have hsound : Sound _ := hinsert.congr (fun _ _ _ => by simp [indicator]) fun _ _ _ => rfl
    refine ⟨⟨?_, ?_, ?_, fun _ e => by cases e⟩, ?_⟩
    · simpa [IdCounters.takeLearner, Edited.population] using hsound
    · simp [IdCounters.takeLearner, Edited.population]
    · simp [IdCounters.takeLearner, Edited.population]
    · intro l q e
      cases e
      exact congrArg IdCounters.nextLearner (counters_retainTarget p action)

/-- The same with a neutral change of the new learner. -/
theorem keeps_addLearnerLike (h : Sound p) (program : Program) (action : Action)
    (addressing : Addressing) (group : Nat) (f : Learner → Learner)
    (hf : ∀ l, (f l).id = l.id ∧ (f l).action = l.action ∧ (f l).references = l.references) :
    (p.addLearnerLike program action addressing group f).Keeps p ∧
      ∀ l q, p.addLearnerLike program action addressing group f = .done l q →
        l.index = p.counters.nextLearner := by
  obtain ⟨hkeeps, hid⟩ := keeps_addLearnerWith h program action addressing group
  simp only [addLearnerLike]
  cases hadd : p.addLearnerWith program action addressing group with
  | refused e q =>
    rw [hadd] at hkeeps
    exact ⟨hkeeps.of_refused, fun _ _ e => by cases e⟩
  | done id q =>
    rw [hadd] at hkeeps
    refine ⟨⟨hkeeps.sound.modifyLearner_of_same id f hf, hkeeps.nextTeam_le, hkeeps.nextLearner_le,
      fun _ e => by cases e⟩, fun l q' e => ?_⟩
    cases e
    exact hid _ _ hadd

theorem keeps_addLearner (h : Sound p) (action : Action) :
    (p.addLearner action).Ensures fun e => e.Keeps p ∧
      ∀ l q, e = .done l q → l.index = p.counters.nextLearner := by
  refine (createProgram_ensures p).bind fun r hr => ?_
  obtain ⟨program, q⟩ := r
  subst hr
  refine .after fun addressing => .after fun group => ?_
  have key : ∀ vector : Bool, (pure (addLearnerLike _ program action addressing group fun l =>
      { l with mode := if vector then .vector else .scalar }) : Draw (Edited LearnerId)).Ensures
      fun e => e.Keeps p ∧ ∀ l q, e = .done l q → l.index = p.counters.nextLearner := fun vector => by
    obtain ⟨hkeeps, hid⟩ := keeps_addLearnerLike h.takeProgram program action addressing group
      (fun l => { l with mode := if vector then .vector else .scalar }) fun _ => ⟨rfl, rfl, rfl⟩
    exact .pure ⟨⟨hkeeps.sound, hkeeps.nextTeam_le, hkeeps.nextLearner_le, hkeeps.counted⟩, hid⟩
  dsimp only
  split <;> exact .after key

theorem keeps_cloneLearner (h : Sound p) (parent : LearnerId) :
    (p.cloneLearner parent).Keeps p ∧
      ∀ l q, p.cloneLearner parent = .done l q → l.index = p.counters.nextLearner := by
  simp only [cloneLearner]
  split
  · exact ⟨.refused h (by simp), fun _ _ e => by cases e⟩
  · rename_i l _
    obtain ⟨hkeeps, hid⟩ := keeps_addLearnerLike h.takeProgram (l.program.offspring _) l.action
      l.addressing l.group (fun child => { child with mode := l.mode, registers := l.registers })
      fun _ => ⟨rfl, rfl, rfl⟩
    exact ⟨⟨hkeeps.sound, hkeeps.nextTeam_le, hkeeps.nextLearner_le, hkeeps.counted⟩, hid⟩

theorem keeps_join (h : Sound p) (t : TeamId) (l : LearnerId) : (p.join t l).Keeps p := by
  simp only [join]
  split
  · exact .refused h (by simp)
  · exact .refused h (by simp)
  · rename_i learner team hl ht
    split
    · exact .refused h (by simp)
    · rename_i hnew
      have hb := h.team t team ht
      have hjoined := h.modifyTeam ht (fun team => { team with members := team.members ++ [l] }) rfl
        (List.nodup_append.2 ⟨hb.nodup, List.nodup_singleton l, fun a ha b hb hab =>
          hnew (by rwa [← List.mem_singleton.1 hb, ← hab])⟩)
        fun k hk => by
          rcases List.mem_append.1 hk with hk | hk
          · exact hb.live k hk
          · obtain rfl := List.mem_singleton.1 hk
            exact OrderedMap.contains_iff.2 ⟨learner, hl⟩
      refine .done ((hjoined.retainLearner l).congr (fun u _ _ => ?_) fun k _ _ => ?_) rfl
      · simp
      · simp only [indicator]
        by_cases hk : k = l
        · simp [hk, hnew]
        · simp [hk]

theorem keeps_leave (h : Sound p) (t : TeamId) (l : LearnerId) : (p.leave t l).Keeps p := by
  simp only [leave]
  split
  · exact .refused h (by simp)
  · exact .refused h (by simp)
  · rename_i learner team hl ht
    split
    · exact .refused h (by simp)
    · rename_i hmem
      have hmember : l ∈ team.members := by simpa using hmem
      have hpos := h.pos_of_member ht hmember hl
      have hb := h.team t team ht
      rw [if_neg (Nat.ne_of_gt hpos)]
      have hleft := h.modifyTeam ht (fun team => { team with members := team.members.erase l }) rfl
        (hb.nodup.erase l) fun k hk => hb.live k (List.mem_of_mem_erase hk)
      refine .done ((hleft.releaseLearner fun learner' hl' => ?_).congr (fun u _ _ => ?_)
        fun k _ _ => ?_) rfl
      · rwa [Option.some.inj (hl'.symm.trans hl)]
      · simp
      · simp only [indicator]
        by_cases hk : k = l
        · simp [hk, hmember, hb.nodup.mem_erase_iff]
        · simp [hk, hb.nodup.mem_erase_iff]

private theorem ne_underflow_of_rewireObstacle (h : Sound p) {l : LearnerId} {learner : Learner}
    (hl : p.learners.find? l = some learner) {action : Action} {e : PopulationError}
    (he : p.rewireObstacle? learner.action action = some e) (node : Node) :
    e ≠ .referenceUnderflow node := by
  simp only [rewireObstacle?] at he
  split at he
  · cases he
    simp
  · split at he
    · cases he
    · rename_i t ht
      split at he
      · cases he
        simp
      · rename_i team hteam
        rw [if_neg (Nat.ne_of_gt (h.pos_of_target hl ht hteam))] at he
        cases he

private theorem contains_of_rewireObstacle {old new : Action}
    (h : p.rewireObstacle? old new = none) (t : TeamId) (ht : new.target? = some t) :
    p.teams.contains t = true := by
  simp only [rewireObstacle?] at h
  split at h
  · cases h
  · rename_i hnew
    exact contains_of_target_obstacle hnew t ht

theorem keeps_rewire (h : Sound p) (l : LearnerId) (action : Action) :
    (p.rewire l action).Keeps p := by
  simp only [rewire]
  split
  · exact .refused h (by simp)
  · rename_i learner hl
    split
    · rename_i e he
      exact .refused h (ne_underflow_of_rewireObstacle h hl he)
    · rename_i he
      -- Between release and change of action the old target is short of one reference.
      have hreleased := h.releaseTarget (a := learner.action)
        fun t team ht hteam => h.pos_of_target hl ht hteam
      have hl' : ((p.releaseTarget learner.action).retainTarget action).learners.find? l =
          some learner := by simpa using hl
      have hmoved := (hreleased.retainTarget action).modifyLearner hl' (fun l => { l with action }) rfl
        fun t ht => by simpa using contains_of_rewireObstacle he t ht
      refine .done (hmoved.congr (fun t _ _ => ?_) fun k _ _ => ?_) (by simp [modifyLearner])
      · simp only
        omega
      · simp

theorem keeps_commitScores (h : Sound p) (t : TeamId) (scores : Scores) :
    (p.commitScores t scores).Keeps p := by
  simp only [commitScores]
  split
  · exact .refused h (by simp)
  · exact .done (h.modifyTeam_of_same t _ fun _ => ⟨rfl, rfl, rfl⟩) rfl

private theorem memberObstacle?_ne_underflow (h : Sound p) {t : TeamId} {team : Team}
    (ht : p.teams.find? t = some team) : ∀ {ls : List LearnerId} {e : PopulationError},
    (∀ l ∈ ls, l ∈ team.members) → p.memberObstacle? ls = some e →
    ∀ node, e ≠ .referenceUnderflow node
  | [], _, _, he => by cases he
  | l :: ls, e, hmem, he => by
    intro node
    simp only [memberObstacle?] at he
    split at he
    · cases he
      simp
    · rename_i learner hl
      rw [if_neg (Nat.ne_of_gt (h.pos_of_member ht (hmem l List.mem_cons_self) hl))] at he
      exact memberObstacle?_ne_underflow h ht (fun k hk => hmem k (List.mem_cons_of_mem _ hk)) he node

theorem keeps_removeTeam (h : Sound p) (t : TeamId) : (p.removeTeam t).Keeps p := by
  simp only [removeTeam]
  split
  · exact .refused h (by simp)
  · rename_i team ht
    have hb := h.team t team ht
    split
    · exact .refused h (by simp)
    · rename_i hzero
      split
      · rename_i e he
        exact .refused h (memberObstacle?_ne_underflow h ht (fun _ hl => hl) he)
      · have hedges : p.edgesTo t = 0 := by
          have hcount := hb.count
          omega
        -- With the team gone each of its members has one reference too many until it is released.
        have herased := h.eraseTeam ht hedges
        refine .done (Balanced.releaseAll hb.nodup (herased.congr (fun _ _ _ => rfl) fun l _ _ => ?_))
          (by rw [foldl_releaseLearner])
        omega

theorem keeps_removeLearner (h : Sound p) (l : LearnerId) : (p.removeLearner l).Keeps p := by
  simp only [removeLearner]
  split
  · exact .refused h (by simp)
  · rename_i learner hl
    split
    · exact .refused h (by simp)
    · rename_i hzero
      have hlistings : p.listings l = 0 := by
        have hcount := (h.learner l learner hl).count
        omega
      -- The target, if there is one, is left with one reference too many.
      have herased := h.eraseLearner hl hlistings
      split
      · rename_i htarget
        exact .done (herased.congr (fun _ _ _ => by simp [indicator, htarget]) fun _ _ _ => rfl) rfl
      · rename_i t htarget
        split
        · exact .refused h (by simp)
        · rename_i team ht
          have hpos := h.pos_of_target hl htarget ht
          rw [if_neg (Nat.ne_of_gt hpos)]
          have hreleased := herased.releaseTeam (t := t) fun team' ht' => by
            rwa [Option.some.inj (ht'.symm.trans ht)]
          refine .done (hreleased.congr (fun u _ _ => ?_) fun _ _ _ => rfl) rfl
          simp only [htarget, Option.some.injEq, eq_comm (a := u)]
          omega

theorem keeps_mutateAction (h : Sound p) (l : LearnerId) (parent : Option TeamId)
    (pool : List AtomicAction) : (p.mutateAction l parent pool).Ensures fun e => e.Keeps p := by
  have hrewire := keeps_rewire h l
  have hmeets : (p.mutateAction l parent pool).Meets (fun _ => True) fun e => e.Keeps p := by
    refine mutateAction_meets trivial (fun _ => .refused h (by simp)) (.done h rfl) ?_ ?_
    · intro action e q _ hq
      have hkeeps := hrewire action
      rw [hq] at hkeeps
      exact hkeeps.of_refused
    · intro action q hq
      have hkeeps := hrewire action
      rw [hq] at hkeeps
      exact hkeeps.of_done _
  exact hmeets.ensures

private theorem uniquenessCorpus_ne_underflow {l : LearnerId} {references : List LearnerId}
    (node : Node) :
    ∀ e, p.uniquenessCorpus l references = .error e → e ≠ .referenceUnderflow node := by
  have hlearner : ∀ k e, p.learner k = .error e → e ≠ .referenceUnderflow node := by
    intro k e hk
    simp only [Population.learner] at hk
    split at hk <;> cases hk
    simp
  refine error_of_bind (hlearner l) fun target => ?_
  refine error_of_bind (error_of_mapM (fun k => ?_) references) fun _ _ h => by cases h
  exact error_of_bind (hlearner k) fun _ _ h => by cases h

/-- A population that rounds make of `p`. -/
private structure Succeeds (p q : Population) : Prop where
  settings : q.settings = p.settings
  keeps : (Edited.done () q).Keeps p

private theorem Succeeds.rewire {q : Population} (h : Succeeds p q) (l : LearnerId)
    (action : Action) : (q.rewire l action).Keeps p := h.keeps.trans (keeps_rewire h.keeps.sound l action)

private theorem Succeeds.modifyLearner {q : Population} (h : Succeeds p q) (l : LearnerId)
    (f : Learner → Learner)
    (hf : ∀ l, (f l).id = l.id ∧ (f l).action = l.action ∧ (f l).references = l.references) :
    Succeeds p (q.modifyLearner l f) where
  settings := h.settings
  keeps := h.keeps.trans (.done (h.keeps.sound.modifyLearner_of_same l f hf) rfl)

theorem keeps_mutateLearner (h : Sound p) (l : LearnerId) (scope : MutationScope) :
    (p.mutateLearner l scope).Ensures fun e => e.Keeps p := by
  have hmeets : (p.mutateLearner l scope).Meets (fun _ => True) (Edited.Satisfies
      (fun _ q => Succeeds p q) fun e q => (Edited.refused e q : Edited Unit).Keeps p) := by
    refine mutateLearner_meets (fun e he => .refused h fun node => ?_) ⟨rfl, .done h rfl⟩
      (fun _ _ hq => hq.settings) (fun _ _ _ hq => hq) fun corpus => ?_
    · exact uniquenessCorpus_ne_underflow node e he
    have hdead : ∀ (report : MutationReport) (q : Population), Succeeds p q →
        q.learners.find? l = none → (Edited.refused (.unknownLearner l) q : Edited Unit).Keeps p :=
      fun _ _ hq _ => hq.keeps.trans (.refused hq.keeps.sound (by simp))
    refine forall_mem_roundSteps (RoundStep.Meets.onCoin trivial)
      (.mutateProgram hdead fun _ _ _ hq _ => Draw.meets_of_forall fun _ =>
        hq.modifyLearner l _ fun _ => ⟨rfl, rfl, rfl⟩)
      (fun _ => .toggleMode hdead fun _ _ _ hq _ => hq.modifyLearner l _ fun _ => ⟨rfl, rfl, rfl⟩)
      (.changeAction hdead trivial (fun _ _ _ hq => hq) ?_ ?_)
      (.changeGroup hdead trivial fun _ _ _ _ hq _ _ =>
        hq.modifyLearner l _ fun _ => ⟨rfl, rfl, rfl⟩)
      (.moveAddressing hdead fun _ _ _ hq _ => Draw.meets_of_forall fun _ =>
        hq.modifyLearner l _ fun _ => ⟨rfl, rfl, rfl⟩)
    · intro report q action e q' hq _ hrewire
      have hkeeps := hq.rewire l action
      rwa [hrewire] at hkeeps
    · intro report q action q' hq hrewire
      have hkeeps := hq.rewire l action
      rw [hrewire] at hkeeps
      exact ⟨(rewire_frame hrewire).1.trans hq.settings, hkeeps⟩
  refine hmeets.ensures.mono fun e he => ?_
  cases e with
  | done report q => exact he.keeps.of_done _
  | refused e q => exact he.of_refused

private theorem run_ne_underflow {visited : List TeamId} (p : Population) (input : Observation)
    (node : Node) : ∀ (ls : List LearnerId) (poll : Poll visited),
    (Poll.run p input ls poll).2 ≠ some (.referenceUnderflow node)
  | [], _ => by simp [Poll.run]
  | l :: ls, poll => by
    simp only [Poll.run]
    split
    · simp
    · split
      · exact run_ne_underflow p input node ls _
      · exact run_ne_underflow p input node ls _

theorem descend_ne_underflow (p : Population) (input : Observation) (visited : List TeamId)
    (bank : Machine.Bank) (bidders : List LearnerId) (t : TeamId) (fresh : t ∉ visited) (node : Node) :
    (p.descend input visited bank bidders t fresh).result ≠ .error (.referenceUnderflow node) := by
  fun_induction p.descend input visited bank bidders t fresh with
  | case1 => simp
  | case2 visited bank bidders t fresh team hteam poll e hpoll =>
    intro he
    have hrun := run_ne_underflow p input node team.members
      (⟨bank, bidders, none⟩ : Poll (t :: visited))
    rw [hpoll] at hrun
    exact hrun (congrArg some (Except.error.inj he))
  | case3 => simp
  | case4 => simp
  | case5 _ _ _ _ _ _ _ _ _ _ _ _ _ ih => exact ih

theorem learnerAct_ne_underflow (p : Population) (l : LearnerId) (input : Observation)
    (bank : Machine.Bank) (visited : List TeamId) (node : Node) :
    (p.learnerAct l input bank visited).result ≠ .error (.referenceUnderflow node) := by
  simp only [learnerAct]
  split
  · simp
  · split
    · simp
    · exact descend_ne_underflow _ _ _ _ _ _ _ node

theorem Sound.rememberAll (input : Observation) : ∀ (ls : List LearnerId) {p : Population}, Sound p →
    Sound (p.rememberAll input ls) ∧ (p.rememberAll input ls).counters = p.counters
  | [], _, h => ⟨h, rfl⟩
  | l :: ls, p, h => by
    have hstep : Sound (p.modifyLearner l fun learner =>
        learner.remember input p.settings.stateHistory) := by
      refine h.modifyLearner_of_same l _ fun learner => ?_
      simp only [Learner.remember]
      split <;> exact ⟨rfl, rfl, rfl⟩
    exact Sound.rememberAll input ls hstep

theorem Sound.actRecording (h : Sound p) (t : TeamId) (input : Observation) (bank : Machine.Bank) :
    Sound (p.actRecording t input bank).2 ∧
      (p.actRecording t input bank).2.counters = p.counters ∧
      (p.actRecording t input bank).1 = p.act t input bank := by
  unfold Population.actRecording
  dsimp only
  split
  · have hall := h.rememberAll input (p.act t input bank).bidders
    exact ⟨hall.1, hall.2, rfl⟩
  · exact ⟨h, rfl, rfl⟩

end Population

end TangledPrograms
