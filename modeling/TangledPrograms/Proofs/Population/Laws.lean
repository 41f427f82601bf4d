import TangledPrograms.Proofs.Population.Rounds

/-!
# Laws of single nodes

A law asks something of every team and every learner by itself. It is stable if each kind of change
that commands make to a node keeps it, and lasts if new nodes obey it too; then every command keeps it
of all nodes, along any run, and halts only for reasons that the changes may halt for.
-/

namespace TangledPrograms

/-- What is asked of a team and of a learner under a number. -/
structure NodeLaw where
  team : TeamId → Team → Prop
  learner : LearnerId → Learner → Prop

/-- The settings and ranges of a population, and a law that all of its nodes obey. -/
structure Population.Upholds (p : Population) (law : NodeLaw) (s : Settings)
    (r : InstructionRanges) : Prop where
  settings : p.settings = s
  ranges : p.ranges = r
  team : ∀ t team, p.teams.find? t = some team → law.team t team
  learner : ∀ l learner, p.learners.find? l = some learner → law.learner l learner

/-- Every kind of change to a live node keeps the law; those that draw halt only for reasons in
`E`. -/
structure NodeLaw.Stable (law : NodeLaw) (E : Halt → Prop) (s : Settings)
    (r : InstructionRanges) : Prop where
  join : ∀ t team l, law.team t team → l ∉ team.members →
    law.team t { team with members := team.members ++ [l] }
  leave : ∀ t team l, law.team t team → law.team t { team with members := team.members.erase l }
  targeted : ∀ t team n, law.team t team → law.team t { team with references := n }
  scored : ∀ t team scores, law.team t team → law.team t { team with scores }
  listed : ∀ l learner n, law.learner l learner → law.learner l { learner with references := n }
  acting : ∀ l learner action, law.learner l learner → law.learner l { learner with action }
  remembering : ∀ l learner input, law.learner l learner →
    law.learner l (learner.remember input s.stateHistory)
  program : ∀ l learner corpus, law.learner l learner →
    (learner.program.mutate s.mutation r corpus).Meets E fun o =>
      law.learner l { learner with program := o.2 }
  mode : s.addressing.vectorMode = true → ∀ l learner, law.learner l learner →
    law.learner l { learner with mode := learner.mode.toggle }
  group : ∀ l learner (g : UInt32), g < .ofNat s.registers.sharedGroups → law.learner l learner →
    law.learner l { learner with group := g.toNat }
  addressing : ∀ l learner, law.learner l learner →
    learner.addressing.perturb.Meets E fun o => law.learner l { learner with addressing := o.2 }

/-- A law that asks nothing of teams, and nothing of learners that edges and decisions change. -/
theorem NodeLaw.stable_of_learners {P : Learner → Prop} {E : Halt → Prop} {s : Settings}
    {r : InstructionRanges}
    (kept : ∀ (l : Learner) references action memory, P l → P { l with references, action, memory })
    (program : ∀ l corpus, P l → (l.program.mutate s.mutation r corpus).Meets E fun o =>
      P { l with program := o.2 })
    (mode : ∀ l, P l → P { l with mode := l.mode.toggle })
    (group : ∀ l group, P l → P { l with group })
    (addressing : ∀ l, P l → l.addressing.perturb.Meets E fun o => P { l with addressing := o.2 }) :
    NodeLaw.Stable ⟨fun _ _ => True, fun _ l => P l⟩ E s r where
  join _ _ _ _ _ := trivial
  leave _ _ _ _ := trivial
  targeted _ _ _ _ := trivial
  scored _ _ _ _ := trivial
  listed _ l n h := kept l n l.action l.memory h
  acting _ l action h := kept l l.references action l.memory h
  remembering _ l input h := by
    obtain ⟨memory, hremember⟩ := l.remember_eq input s.stateHistory
    rw [hremember]
    exact kept l l.references l.action memory h
  program _ l corpus h := program l corpus h
  mode _ _ l h := mode l h
  group _ l g _ h := group l g.toNat h
  addressing _ l h := addressing l h

/-- The law is kept by changes, and new nodes obey it. -/
structure NodeLaw.Lasting (law : NodeLaw) (E : Halt → Prop) (s : Settings)
    (r : InstructionRanges) : Prop extends law.Stable E s r where
  newTeam : ∀ t, law.team t (.new t)
  newLearner : ∀ id, (Program.random id r).Meets E fun program =>
    (Addressing.random s.addressing).Meets E fun addressing => ∀ l mode group action,
      (mode = .vector → s.addressing.vectorMode = true) → group < max s.registers.sharedGroups 1 →
      law.learner l (.fresh l program mode addressing group action s.registers.count)
  offspring : ∀ k parent l id, law.learner k parent → law.learner l (.fresh l
    (parent.program.offspring id) parent.mode parent.addressing parent.group parent.action
    parent.registers)

/-- Parts that are handed in make a learner that obeys the law. -/
def NodeLaw.Admits (law : NodeLaw) (s : Settings) : Command → Prop
  | .addLearnerWith program action addressing group =>
    ∀ l, law.learner l (.fresh l program .scalar addressing group action s.registers.count)
  | _ => True

namespace Population

variable {law : NodeLaw} {s : Settings} {r : InstructionRanges} {p q : Population}

namespace Upholds

section edits

theorem congr (h : p.Upholds law s r) (hs : q.settings = p.settings) (hr : q.ranges = p.ranges)
    (ht : q.teams = p.teams) (hl : q.learners = p.learners) : q.Upholds law s r :=
  ⟨hs.trans h.settings, hr.trans h.ranges, ht ▸ h.team, hl ▸ h.learner⟩

theorem takeProgram (h : p.Upholds law s r) :
    Upholds { p with counters := p.counters.takeProgram.2 } law s r := h.congr rfl rfl rfl rfl

theorem modifyTeam (h : p.Upholds law s r) (t : TeamId) {f : Team → Team}
    (hf : ∀ team, p.teams.find? t = some team → law.team t team → law.team t (f team)) :
    (p.modifyTeam t f).Upholds law s r := by
  refine ⟨h.settings, h.ranges, fun u team hu => ?_, h.learner⟩
  rw [Population.modifyTeam, OrderedMap.find?_modify] at hu
  split at hu
  · rename_i hut
    obtain rfl := Std.LawfulEqCmp.eq_of_compare hut
    obtain ⟨team', hteam', rfl⟩ := Option.map_eq_some_iff.1 hu
    exact hf team' hteam' (h.team u team' hteam')
  · exact h.team u team hu

theorem modifyLearner (h : p.Upholds law s r) (l : LearnerId) {f : Learner → Learner}
    (hf : ∀ learner, p.learners.find? l = some learner → law.learner l learner →
      law.learner l (f learner)) : (p.modifyLearner l f).Upholds law s r := by
  refine ⟨h.settings, h.ranges, h.team, fun k learner hk => ?_⟩
  rw [Population.modifyLearner, OrderedMap.find?_modify] at hk
  split at hk
  · rename_i hkl
    obtain rfl := Std.LawfulEqCmp.eq_of_compare hkl
    obtain ⟨learner', hlearner', rfl⟩ := Option.map_eq_some_iff.1 hk
    exact hf learner' hlearner' (h.learner k learner' hlearner')
  · exact h.learner k learner hk

theorem insertLearner (h : p.Upholds law s r) (counters : IdCounters) (l : LearnerId)
    {learner : Learner} (hl : law.learner l learner) :
    Upholds { p with counters, learners := p.learners.insert l learner } law s r := by
  refine ⟨h.settings, h.ranges, h.team, fun k other hk => ?_⟩
  rw [OrderedMap.find?_insert] at hk
  split at hk
  · rename_i hkl
    obtain rfl := Std.LawfulEqCmp.eq_of_compare hkl
    cases hk
    exact hl
  · exact h.learner k other hk

theorem eraseTeam (h : p.Upholds law s r) (t : TeamId) :
    Upholds { p with teams := p.teams.erase t } law s r := by
  refine ⟨h.settings, h.ranges, fun u team hu => ?_, h.learner⟩
  rw [OrderedMap.find?_erase] at hu
  split at hu
  · cases hu
  · exact h.team u team hu

theorem eraseLearner (h : p.Upholds law s r) (l : LearnerId) :
    Upholds { p with learners := p.learners.erase l } law s r := by
  refine ⟨h.settings, h.ranges, h.team, fun k learner hk => ?_⟩
  rw [OrderedMap.find?_erase] at hk
  split at hk
  · cases hk
  · exact h.learner k learner hk

end edits

variable {E : Halt → Prop}

section stable

variable (hlaw : law.Stable E s r)
include hlaw

section counts

theorem retainTarget (h : p.Upholds law s r) (a : Action) : (p.retainTarget a).Upholds law s r := by
  simp only [Population.retainTarget]
  split
  · exact h.modifyTeam _ fun team _ => hlaw.targeted _ team _
  · exact h

theorem releaseTarget (h : p.Upholds law s r) (a : Action) :
    (p.releaseTarget a).Upholds law s r := by
  simp only [Population.releaseTarget]
  split
  · exact h.modifyTeam _ fun team _ => hlaw.targeted _ team _
  · exact h

theorem retainLearner (h : p.Upholds law s r) (l : LearnerId) :
    (p.retainLearner l).Upholds law s r := h.modifyLearner l fun learner _ => hlaw.listed l learner _

theorem releaseLearner (h : p.Upholds law s r) (l : LearnerId) :
    (p.releaseLearner l).Upholds law s r := h.modifyLearner l fun learner _ => hlaw.listed l learner _

theorem releaseAll (h : p.Upholds law s r) (ls : List LearnerId) :
    (ls.foldl Population.releaseLearner p).Upholds law s r := by
  induction ls generalizing p with
  | nil => exact h
  | cons l ls ih => exact ih (h.releaseLearner hlaw l)

end counts

section edges

theorem join (h : p.Upholds law s r) (t : TeamId) (l : LearnerId) :
    (p.join t l).population.Upholds law s r := by
  obtain ⟨e, he⟩ | ⟨team, learner, ht, -, hnew, he⟩ := p.join_cases t l
  · rw [he]
    exact h
  · rw [he]
    refine Upholds.retainLearner hlaw (h.modifyTeam t fun team' hteam' hlaw' => ?_) l
    obtain rfl := Option.some.inj (ht.symm.trans hteam')
    exact hlaw.join t team l hlaw' hnew

theorem leave (h : p.Upholds law s r) (t : TeamId) (l : LearnerId) :
    (p.leave t l).population.Upholds law s r := by
  obtain ⟨e, he⟩ | ⟨team, learner, -, -, -, -, he⟩ := p.leave_cases t l
  · rw [he]
    exact h
  · rw [he]
    exact Upholds.releaseLearner hlaw (h.modifyTeam t fun team _ => hlaw.leave t team l) l

theorem rewire (h : p.Upholds law s r) (l : LearnerId) (action : Action) :
    (p.rewire l action).population.Upholds law s r := by
  obtain ⟨e, he⟩ | ⟨learner, -, -, -, he⟩ := p.rewire_cases l action
  · rw [he]
    exact h
  · rw [he]
    have hmoved := (h.releaseTarget hlaw learner.action).retainTarget hlaw action
    exact hmoved.modifyLearner l fun learner _ => hlaw.acting l learner action

theorem commitScores (h : p.Upholds law s r) (t : TeamId) (scores : Scores) :
    (p.commitScores t scores).population.Upholds law s r := by
  obtain ⟨e, he⟩ | he := p.commitScores_cases t scores
  · rw [he]
    exact h
  · rw [he]
    exact h.modifyTeam t fun team _ => hlaw.scored t team _

theorem removeTeam (h : p.Upholds law s r) (t : TeamId) :
    (p.removeTeam t).population.Upholds law s r := by
  obtain ⟨e, he⟩ | ⟨team, -, -, -, he⟩ := p.removeTeam_cases t
  · rw [he]
    exact h
  · rw [he]
    exact (h.eraseTeam t).releaseAll hlaw team.members

theorem removeLearner (h : p.Upholds law s r) (l : LearnerId) :
    (p.removeLearner l).population.Upholds law s r := by
  obtain ⟨e, he⟩ | ⟨learner, -, -, -, he⟩ := p.removeLearner_cases l
  · rw [he]
    exact h
  · rw [he]
    exact (h.eraseLearner l).releaseTarget hlaw learner.action

end edges

section mutations

theorem mutateAction (hE : E .starved) (h : p.Upholds law s r) (l : LearnerId)
    (parent : Option TeamId) (pool : List AtomicAction) :
    (p.mutateAction l parent pool).Meets E fun e => e.population.Upholds law s r := by
  have hrewire := h.rewire hlaw l
  refine mutateAction_meets hE (fun _ => h) h (fun action e q _ hq => ?_) fun action q hq => ?_
  · have hleft := hrewire action
    rwa [hq] at hleft
  · have hleft := hrewire action
    rwa [hq] at hleft

/-- The steps of a round keep what all nodes obey. -/
theorem meets_roundSteps (hE : E .starved) (l : LearnerId) (scope : MutationScope)
    (corpus : Option UniquenessCorpus) : ∀ step ∈ roundSteps s l scope corpus,
      step.Meets E (fun _ q => q.Upholds law s r) fun _ q => q.Upholds law s r := by
  have hdead : ∀ (report : MutationReport) (q : Population), q.Upholds law s r →
      q.learners.find? l = none → q.Upholds law s r := fun _ _ hq _ => hq
  refine forall_mem_roundSteps (fun hstep => RoundStep.Meets.onCoin hE hstep)
    (RoundStep.Leads.mutateProgram hdead ?_) (fun hmode => RoundStep.Leads.toggleMode hdead ?_)
    (RoundStep.Meets.changeAction hdead hE (fun _ _ _ hq => hq) ?_ ?_)
    (RoundStep.Meets.changeGroup hdead hE ?_) (RoundStep.Leads.moveAddressing hdead ?_)
  · intro report q learner hq hl
    rw [hq.settings, hq.ranges]
    refine (hlaw.program l learner corpus (hq.learner l learner hl)).mono fun o ho => ?_
    refine hq.modifyLearner l fun learner' hl' _ => ?_
    rwa [← Option.some.inj (hl.symm.trans hl')]
  · intro report q learner hq hl
    exact hq.modifyLearner l fun learner' _ => hlaw.mode hmode l learner'
  · intro report q action e q' hq _ hrewire
    have hleft := hq.rewire hlaw l action
    rwa [hrewire] at hleft
  · intro report q action q' hq hrewire
    have hleft := hq.rewire hlaw l action
    rwa [hrewire] at hleft
  · intro report q learner group hq hl hgroup
    rw [hq.settings] at hgroup
    exact hq.modifyLearner l fun learner' _ => hlaw.group l learner' group hgroup
  · intro report q learner hq hl
    refine (hlaw.addressing l learner (hq.learner l learner hl)).mono fun o ho => ?_
    refine hq.modifyLearner l fun learner' hl' _ => ?_
    rwa [← Option.some.inj (hl.symm.trans hl')]

/-- The rounds of a mutation keep what all nodes obey. -/
theorem mutateLearner (hE : E .starved) (h : p.Upholds law s r) (l : LearnerId)
    (scope : MutationScope) :
    (p.mutateLearner l scope).Meets E fun e => e.population.Upholds law s r := by
  have hmeets : (p.mutateLearner l scope).Meets E
      (Edited.Satisfies (fun _ q => q.Upholds law s r) fun _ q => q.Upholds law s r) := by
    refine mutateLearner_meets (fun _ _ => h) h (fun _ q hq => hq.settings.trans h.settings.symm)
      (fun _ _ _ hq => hq) fun corpus => ?_
    rw [h.settings]
    exact meets_roundSteps hlaw hE l scope corpus
  exact hmeets.mono fun e he => by cases e <;> exact he

end mutations

theorem actRecording (h : p.Upholds law s r) (t : TeamId) (input : Observation)
    (bank : Machine.Bank) : (p.actRecording t input bank).2.Upholds law s r := by
  have hremember : ∀ (ls : List LearnerId) {q : Population}, q.Upholds law s r →
      (q.rememberAll input ls).Upholds law s r := by
    intro ls
    induction ls with
    | nil => exact fun hq => hq
    | cons l ls ih =>
      intro q hq
      refine ih (hq.modifyLearner l fun learner _ hl => ?_)
      rw [hq.settings]
      exact hlaw.remembering l learner input hl
  unfold Population.actRecording
  dsimp only
  split
  · exact hremember _ h
  · exact h

end stable

section creations

variable (hlaw : law.Lasting E s r)
include hlaw

theorem addTeam (h : p.Upholds law s r) : p.addTeam.2.Upholds law s r := by
  refine ⟨h.settings, h.ranges, fun t team ht => ?_, h.learner⟩
  simp only [Population.addTeam] at ht
  rw [OrderedMap.find?_insert] at ht
  split at ht
  · rename_i htu
    obtain rfl := Std.LawfulEqCmp.eq_of_compare htu
    cases ht
    exact hlaw.newTeam _
  · exact h.team t team ht

theorem fresh (h : p.Upholds law s r) {action : Action} {learner : Learner}
    (hl : law.learner ⟨p.counters.nextLearner⟩ learner) :
    Upholds { p.retainTarget action with
      counters := p.counters.takeLearner.2
      learners := p.learners.insert ⟨p.counters.nextLearner⟩ learner } law s r := by
  have hinsert := (h.retainTarget hlaw.toStable action).insertLearner p.counters.takeLearner.2 _ hl
  rwa [learners_retainTarget] at hinsert

theorem addLearnerLike (h : p.Upholds law s r) {program : Program} {action : Action}
    {addressing : Addressing} {group : Nat} {f : Learner → Learner}
    (hf : ∀ l, law.learner l
      (f (.fresh l program .scalar addressing group action s.registers.count))) :
    (p.addLearnerLike program action addressing group f).population.Upholds law s r := by
  obtain ⟨e, hadd⟩ | ⟨-, hadd⟩ := p.addLearnerLike_cases program action addressing group f
  · rw [hadd]
    exact h
  · rw [hadd, h.settings]
    exact h.fresh hlaw (hf _)

theorem addLearnerWith (h : p.Upholds law s r) {program : Program} {action : Action}
    {addressing : Addressing} {group : Nat}
    (hl : law.Admits s (.addLearnerWith program action addressing group)) :
    (p.addLearnerWith program action addressing group).population.Upholds law s r := by
  obtain ⟨e, hadd⟩ | ⟨-, hadd⟩ := p.addLearnerWith_cases program action addressing group
  · rw [hadd]
    exact h
  · rw [hadd, h.settings]
    exact h.fresh hlaw (hl _)

theorem createProgram (h : p.Upholds law s r) :
    p.createProgram.Meets E fun o => o.2.Upholds law s r := by
  obtain rfl := h.ranges
  exact (hlaw.newLearner _).bind fun program _ => .pure h.takeProgram

theorem addLearner (hE : E .starved) (h : p.Upholds law s r) (action : Action) :
    (p.addLearner action).Meets E fun e => e.population.Upholds law s r := by
  obtain rfl := h.ranges
  obtain rfl := h.settings
  simp only [Population.addLearner, Population.createProgram]
  rw [bind_assoc]
  refine (hlaw.newLearner _).bind fun program hprogram => ?_
  rw [pure_bind]
  refine hprogram.bind fun addressing haddressing => ?_
  refine ((Draw.yields_below (by omega)).meets hE).bind fun group hgroup => ?_
  have hlike : ∀ vector : Bool, (vector = true → p.settings.addressing.vectorMode = true) →
      (Population.addLearnerLike { p with counters := p.counters.takeProgram.2 } program action
        addressing group fun l => { l with mode := if vector then .vector else .scalar
        }).population.Upholds law p.settings p.ranges := by
    intro vector hvector
    refine h.takeProgram.addLearnerLike hlaw fun l => ?_
    refine haddressing l (if vector then .vector else .scalar) group action (fun hmode => ?_) hgroup
    cases vector with
    | true => exact hvector rfl
    | false => cases hmode
  split
  · rename_i hmode
    exact ((Draw.yields_fairCoin).meets hE).bind fun vector _ => .pure (hlike vector fun _ => hmode)
  · exact .pure (hlike false nofun)

theorem cloneLearner (h : p.Upholds law s r) (parent : LearnerId) :
    (p.cloneLearner parent).population.Upholds law s r := by
  simp only [Population.cloneLearner]
  split
  · exact h
  · rename_i learner hl
    exact h.takeProgram.addLearnerLike hlaw fun l =>
      hlaw.offspring parent learner l _ (h.learner parent learner hl)

end creations

end Upholds

end Population

open Population (Upholds)

variable {law : NodeLaw} {E : Halt → Prop} {s : Settings} {r : InstructionRanges}

/-- A law that lasts is kept by every command that it admits. -/
theorem Command.upholds (hlaw : law.Lasting E s r) (hE : E .starved) {p : Population}
    (h : p.Upholds law s r) {c : Command} (hc : law.Admits s c) :
    (c.perform p).Meets E fun o => o.2.Upholds law s r := by
  have hedit : ∀ {α : Type} (answer : α → Reply) {e : Edited α}, e.population.Upholds law s r →
      (pure (e.reply answer) : Draw (Reply × Population)).Meets E fun o => o.2.Upholds law s r := by
    intro α answer e he
    cases e <;> exact .pure he
  have hstable := hlaw.toStable
  cases c with
  | addTeam => exact .pure (h.addTeam hlaw)
  | createProgram => exact (h.createProgram hlaw).bind fun o ho => .pure ho
  | addLearner action => exact (h.addLearner hlaw hE action).bind fun e he => hedit _ he
  | addLearnerWith program action addressing group => exact hedit _ (h.addLearnerWith hlaw hc)
  | cloneLearner parent => exact hedit _ (h.cloneLearner hlaw parent)
  | join t l => exact hedit _ (h.join hstable t l)
  | leave t l => exact hedit _ (h.leave hstable t l)
  | rewire l action => exact hedit _ (h.rewire hstable l action)
  | removeTeam t => exact hedit _ (h.removeTeam hstable t)
  | removeLearner l => exact hedit _ (h.removeLearner hstable l)
  | mutateAction l parent pool =>
    exact (h.mutateAction hstable hE l parent pool).bind fun e he => hedit _ he
  | mutateLearner l scope => exact (h.mutateLearner hstable hE l scope).bind fun e he => hedit _ he
  | actRecording t input bank => exact .pure (h.actRecording hstable t input bank)
  | commitScores t scores => exact hedit _ (h.commitScores hstable t scores)
  | teamAct t input bank visited => exact .pure h
  | learnerAct l input bank visited => exact .pure h
  | checkReferences =>
    simp only [perform]
    cases p.checkReferences <;> exact .pure h
  | unreferenced => exact .pure h

namespace Population

theorem upholds_new {p : Population} (h : Population.new s = .ok p) :
    p.Upholds law s (.ofSettings s.program) := by
  obtain ⟨_, rfl⟩ := new_eq_ok h
  exact ⟨rfl, rfl, nofun, nofun⟩

theorem Run.mono {p₀ p : Population} {admits admits' : Command → Prop}
    (hadmits : ∀ c, admits c → admits' c) (h : Run admits p₀ p) : Run admits' p₀ p := by
  induction h with
  | start => exact .start
  | step _ hc hperform ih => exact .step ih (hadmits _ hc) hperform

theorem Run.upholds {p₀ p : Population} (hlaw : law.Lasting E s r) (hE : E .starved)
    (h : Run (law.Admits s) p₀ p) (h₀ : p₀.Upholds law s r) : p.Upholds law s r := by
  induction h with
  | start => exact h₀
  | step _ hc hperform ih => exact (Command.upholds hlaw hE ih hc).ensures _ _ _ hperform

section keyed

/-- Every node is under its own number. -/
structure Keyed (p : Population) : Prop where
  team : ∀ t team, p.teams.find? t = some team → team.id = t
  learner : ∀ l learner, p.learners.find? l = some learner → learner.id = l

instance (p : Population) : Decidable p.Keyed :=
  decidable_of_iff ((∀ e ∈ p.teams.entries, e.2.id = e.1) ∧ ∀ e ∈ p.learners.entries, e.2.id = e.1)
    ⟨fun h => ⟨fun t team ht => h.1 (t, team) (OrderedMap.find?_eq_some_iff.1 ht),
        fun l learner hl => h.2 (l, learner) (OrderedMap.find?_eq_some_iff.1 hl)⟩,
      fun h => ⟨fun e he => h.team e.1 e.2 (OrderedMap.find?_eq_some_iff.2 he),
        fun e he => h.learner e.1 e.2 (OrderedMap.find?_eq_some_iff.2 he)⟩⟩

private abbrev keying : NodeLaw := ⟨fun t team => team.id = t, fun l learner => learner.id = l⟩

private theorem keyed_iff_upholds (p : Population) :
    p.Keyed ↔ p.Upholds keying p.settings p.ranges := by
  constructor
  · exact fun h => ⟨rfl, rfl, h.team, h.learner⟩
  · exact fun h => ⟨h.team, h.learner⟩

private theorem lasting_keying (s : Settings) (r : InstructionRanges) :
    keying.Lasting (fun _ => True) s r where
  newTeam _ := rfl
  join _ _ _ h _ := h
  leave _ _ _ h := h
  targeted _ _ _ h := h
  scored _ _ _ h := h
  newLearner _ := Draw.meets_of_forall fun _ => Draw.meets_of_forall fun _ _ _ _ _ _ _ => rfl
  offspring _ _ _ _ _ := rfl
  listed _ _ _ h := h
  acting _ _ _ h := h
  remembering _ learner input h := by
    obtain ⟨memory, hremember⟩ := learner.remember_eq input s.stateHistory
    rwa [hremember]
  program _ _ _ h := Draw.meets_of_forall fun _ => h
  mode _ _ _ h := h
  group _ _ _ _ h := h
  addressing _ _ h := Draw.meets_of_forall fun _ => h

/-- No command puts a node under another number. -/
theorem Run.keyed {p₀ p : Population} {admits : Command → Prop} (h : Run admits p₀ p)
    (h₀ : p₀.Keyed) : p.Keyed := by
  have hadmits : ∀ c, admits c → keying.Admits p₀.settings c := by
    intro c _
    cases c with
    | addLearnerWith => exact fun _ => rfl
    | _ => trivial
  refine (keyed_iff_upholds p).2 ?_
  have hrun := (h.mono hadmits).upholds (lasting_keying _ _) trivial ((keyed_iff_upholds p₀).1 h₀)
  exact ⟨rfl, rfl, hrun.team, hrun.learner⟩

end keyed

end Population

end TangledPrograms
