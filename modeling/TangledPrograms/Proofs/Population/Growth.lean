import TangledPrograms.Proofs.Coordinates
import TangledPrograms.Proofs.Population.Laws
import TangledPrograms.Proofs.Population.Soundness

/-!
# What creations leave

A creation is refused and leaves all nodes as they were, or it puts one new node under the next number
of its kind. The recount accepts what it leaves as long as that number is free, and it stays free as
long as all live numbers are below the counters and the counters are words.
-/

namespace TangledPrograms

namespace OrderedMap

variable {κ α : Type} [Ord κ] [Std.TransOrd κ] [Std.LawfulEqOrd κ]

theorem perm_values_insert {m : OrderedMap κ α} {k : κ} (v : α) (h : m.find? k = none) :
    (m.insert k v).values.Perm (v :: m.values) := (perm_insert v h).map Prod.snd

omit [Std.TransOrd κ] [Std.LawfulEqOrd κ] in
/-- A change that keeps what is read of each value keeps what is read of all. -/
theorem flatMap_values_modify {β : Type} (m : OrderedMap κ α) (k : κ) {f : α → α} {g : α → List β}
    (h : ∀ v, g (f v) = g v) : (m.modify k f).values.flatMap g = m.values.flatMap g := by
  simp only [values, modify, List.map_map, List.flatMap_map]
  apply List.flatMap_congr
  intro e _
  simp only [Function.comp_apply]
  split
  · exact h e.2
  · rfl

end OrderedMap

def Command.creates : Command → Bool
  | .addTeam | .addLearner _ | .addLearnerWith .. | .cloneLearner _ => true
  | _ => false

namespace Population

/-- What a creation replies and leaves. -/
inductive Grown (p : Population) : Reply → Population → Prop where
  | refused {reason : PopulationError} {q : Population} (hteams : q.teams = p.teams)
      (hlearners : q.learners = p.learners) (hnextTeam : q.counters.nextTeam = p.counters.nextTeam)
      (hnextLearner : q.counters.nextLearner = p.counters.nextLearner) :
      Grown p (.refused reason) q
  | team {t : TeamId} {q : Population} (ht : t.index = p.counters.nextTeam)
      (hteams : q.teams = p.teams.insert t (.new t)) (hlearners : q.learners = p.learners)
      (hnextTeam : q.counters.nextTeam = p.counters.nextTeam + 1)
      (hnextLearner : q.counters.nextLearner = p.counters.nextLearner) : Grown p (.newTeam t) q
  | learner {l : Learner} {q : Population} (hl : l.id.index = p.counters.nextLearner)
      (hreferences : l.references = 0)
      (hlive : ∀ t, l.action.target? = some t → p.teams.contains t = true)
      (hteams : q.teams = (p.retainTarget l.action).teams)
      (hlearners : q.learners = p.learners.insert l.id l)
      (hnextTeam : q.counters.nextTeam = p.counters.nextTeam)
      (hnextLearner : q.counters.nextLearner = p.counters.nextLearner + 1) :
      Grown p (.newLearner l.id) q

section Commands

variable {p q : Population} {reply : Reply}

theorem Grown.of_takeProgram (h : Grown { p with counters := p.counters.takeProgram.2 } reply q) :
    Grown p reply q := by
  cases h with
  | refused hteams hlearners hnextTeam hnextLearner =>
    exact .refused hteams hlearners hnextTeam hnextLearner
  | team ht hteams hlearners hnextTeam hnextLearner =>
    exact .team ht hteams hlearners hnextTeam hnextLearner
  | @learner l _ hl hreferences hlive hteams hlearners hnextTeam hnextLearner =>
    refine .learner hl hreferences hlive ?_ hlearners hnextTeam hnextLearner
    rw [hteams]
    simp only [retainTarget]
    cases l.action.target? <;> rfl

theorem grown_addTeam (p : Population) : Grown p (.newTeam p.addTeam.1) p.addTeam.2 :=
  .team rfl rfl rfl rfl rfl

/-- A change of the new learner that keeps its number, action and count is part of its creation. -/
theorem Grown.modifyLearner {l : LearnerId} (h : Grown p (.newLearner l) q) {f : Learner → Learner}
    (hf : ∀ l, (f l).id = l.id ∧ (f l).action = l.action ∧ (f l).references = l.references) :
    Grown p (.newLearner l) (q.modifyLearner l f) := by
  cases h with
  | @learner l _ hl hreferences hlive hteams hlearners hnextTeam hnextLearner =>
    obtain ⟨hid, haction, hcount⟩ := hf l
    have hchanged : (q.modifyLearner l.id f).learners = p.learners.insert (f l).id (f l) := by
      rw [Population.modifyLearner, hlearners, OrderedMap.modify_insert, hid]
    have hgrown : Grown p (.newLearner (f l).id) (q.modifyLearner l.id f) :=
      .learner (hid ▸ hl) (hcount.trans hreferences) (haction ▸ hlive) (haction ▸ hteams) hchanged
        hnextTeam hnextLearner
    rwa [hid] at hgrown

/-- The reply to an edit that makes a learner, and what the edit leaves. -/
abbrev Grows (p : Population) (e : Edited LearnerId) : Prop :=
  Grown p (e.reply .newLearner).1 (e.reply .newLearner).2

theorem grows_addLearnerWith (p : Population) (program : Program) (action : Action)
    (addressing : Addressing) (group : Nat) :
    p.Grows (p.addLearnerWith program action addressing group) := by
  simp only [addLearnerWith]
  cases htarget : action.target?.bind fun t => if p.teams.contains t then none else some t with
  | some t => exact .refused rfl rfl rfl rfl
  | none =>
    have hlive : ∀ t, action.target? = some t → p.teams.contains t = true := by
      intro t ht
      rw [ht, Option.bind_some] at htarget
      by_contra hdead
      rw [if_neg hdead] at htarget
      cases htarget
    let fresh : Learner :=
      { id := ⟨p.counters.nextLearner⟩, program, mode := .scalar, addressing, group, action
        references := 0, registers := (p.retainTarget action).settings.registers.count, memory := [] }
    have hgrown : Grown p (.newLearner fresh.id)
        { p.retainTarget action with
          counters := { p.counters with nextLearner := p.counters.nextLearner + 1 }
          learners := p.learners.insert fresh.id fresh } := .learner rfl rfl hlive rfl rfl rfl rfl
    simpa only [Grows, Edited.reply, IdCounters.takeLearner, counters_retainTarget,
      learners_retainTarget] using hgrown

theorem grows_addLearnerLike (p : Population) (program : Program) (action : Action)
    (addressing : Addressing) (group : Nat) {f : Learner → Learner}
    (hf : ∀ l, (f l).id = l.id ∧ (f l).action = l.action ∧ (f l).references = l.references) :
    p.Grows (p.addLearnerLike program action addressing group f) := by
  have hgrows := grows_addLearnerWith p program action addressing group
  simp only [addLearnerLike]
  cases hadd : p.addLearnerWith program action addressing group with
  | refused e q =>
    rw [hadd] at hgrows
    exact hgrows
  | done id q =>
    rw [hadd] at hgrows
    exact Grown.modifyLearner hgrows hf

theorem grows_addLearner (p : Population) (action : Action) :
    (p.addLearner action).Ensures p.Grows := by
  refine (createProgram_ensures p).bind fun r hr => ?_
  obtain ⟨program, p'⟩ := r
  subst hr
  refine .after fun addressing => .after fun group => ?_
  have hlike (vector : Bool) : p.Grows (addLearnerLike { p with counters := p.counters.takeProgram.2 }
      program action addressing group fun l =>
        { l with mode := if vector then .vector else .scalar }) :=
    Grown.of_takeProgram (grows_addLearnerLike _ _ _ _ _ fun _ => ⟨rfl, rfl, rfl⟩)
  dsimp only
  split <;> exact .after fun vector => .pure (hlike vector)

theorem grows_cloneLearner (p : Population) (parent : LearnerId) :
    p.Grows (p.cloneLearner parent) := by
  simp only [cloneLearner]
  split
  · exact .refused rfl rfl rfl rfl
  · exact Grown.of_takeProgram (grows_addLearnerLike _ _ _ _ _ fun _ => ⟨rfl, rfl, rfl⟩)

theorem grown_perform {c : Command} (hc : c.creates = true) (p : Population) :
    (c.perform p).Ensures fun r => Grown p r.1 r.2 := by
  cases c with
  | addTeam => exact .pure (grown_addTeam p)
  | addLearner action => exact (grows_addLearner p action).bind fun e he => .pure he
  | addLearnerWith program action addressing group => exact .pure (grows_addLearnerWith ..)
  | cloneLearner parent => exact .pure (grows_cloneLearner p parent)
  | _ => cases hc

end Commands

/-- Every node sits under its own number, its edges lead to live nodes, and it carries the number of
edges that lead to it, a member counted as often as it is listed. -/
structure Filed (p : Population) : Prop where
  target_live : ∀ t ∈ p.actionTargets, p.teams.contains t = true
  member_live : ∀ l ∈ p.memberships, p.learners.contains l = true
  team : ∀ t team, p.teams.find? t = some team →
    team.id = t ∧ p.actionTargets.count t = team.references
  learner : ∀ l learner, p.learners.find? l = some learner →
    learner.id = l ∧ p.memberships.count l = learner.references

/-- All live numbers are below the counters, but for the last word, which is never given out: no counter
gets past it. -/
structure Numbered (p : Population) : Prop where
  team_lt : ∀ t, p.teams.contains t = true → FitsWord (t.index + 1) →
    t.index < p.counters.nextTeam
  learner_lt : ∀ l, p.learners.contains l = true → FitsWord (l.index + 1) →
    l.index < p.counters.nextLearner

section Invariants

variable {p q : Population} {reply : Reply}

/-- The recount looks nodes up by the numbers that they carry. -/
theorem Keyed.filed (hkeyed : p.Keyed) (h : p.checkReferences = .ok ()) : Filed p := by
  obtain ⟨htargets, hmembers, hteams, hlearners⟩ := (checkReferences_eq_ok_iff p).1 h
  refine ⟨htargets, hmembers, fun t team hteam => ?_, fun l learner hlearner => ?_⟩
  · have hcount := hteams team (OrderedMap.mem_values_iff.2 ⟨t, hteam⟩)
    rw [hkeyed.team t team hteam] at hcount
    exact ⟨hkeyed.team t team hteam, hcount⟩
  · have hcount := hlearners learner (OrderedMap.mem_values_iff.2 ⟨l, hlearner⟩)
    rw [hkeyed.learner l learner hlearner] at hcount
    exact ⟨hkeyed.learner l learner hlearner, hcount⟩

theorem Filed.checkReferences (h : Filed p) : p.checkReferences = .ok () := by
  refine (checkReferences_eq_ok_iff p).2 ⟨h.target_live, h.member_live, ?_, ?_⟩
  · intro team hteam
    obtain ⟨t, ht⟩ := OrderedMap.mem_values_iff.1 hteam
    obtain ⟨hid, hcount⟩ := h.team t team ht
    rwa [hid]
  · intro learner hlearner
    obtain ⟨l, hl⟩ := OrderedMap.mem_values_iff.1 hlearner
    obtain ⟨hid, hcount⟩ := h.learner l learner hl
    rwa [hid]

theorem Numbered.find?_team (h : Numbered p) {t : TeamId} (ht : t.index = p.counters.nextTeam)
    (hfits : FitsWord (p.counters.nextTeam + 1)) : p.teams.find? t = none := by
  cases hfind : p.teams.find? t with
  | none => rfl
  | some team =>
    have hlt := h.team_lt t (OrderedMap.contains_iff.2 ⟨team, hfind⟩) (ht ▸ hfits)
    omega

theorem Numbered.find?_learner (h : Numbered p) {l : LearnerId}
    (hl : l.index = p.counters.nextLearner) (hfits : FitsWord (p.counters.nextLearner + 1)) :
    p.learners.find? l = none := by
  cases hfind : p.learners.find? l with
  | none => rfl
  | some learner =>
    have hlt := h.learner_lt l (OrderedMap.contains_iff.2 ⟨learner, hfind⟩) (hl ▸ hfits)
    omega

theorem memberships_retainTarget (p : Population) (a : Action) :
    (p.retainTarget a).teams.values.flatMap Team.members = p.memberships := by
  simp only [retainTarget]
  cases a.target? with
  | none => rfl
  | some t => exact OrderedMap.flatMap_values_modify _ _ fun _ => rfl

theorem Filed.count_target (h : Filed p) {t : TeamId} (hfree : p.teams.find? t = none) :
    p.actionTargets.count t = 0 := by
  rw [List.count_eq_zero]
  intro hmem
  have hlive := h.target_live t hmem
  rw [OrderedMap.contains, hfree] at hlive
  cases hlive

theorem Filed.count_member (h : Filed p) {l : LearnerId} (hfree : p.learners.find? l = none) :
    p.memberships.count l = 0 := by
  rw [List.count_eq_zero]
  intro hmem
  have hlive := h.member_live l hmem
  rw [OrderedMap.contains, hfree] at hlive
  cases hlive

theorem Filed.not_mem_actionTargets (h : Filed p) {t : TeamId} {team : Team}
    (ht : p.teams.find? t = some team) (hzero : team.references = 0) : t ∉ p.actionTargets := by
  rw [← List.count_eq_zero, (h.team t team ht).2, hzero]

theorem Filed.not_mem_memberships (h : Filed p) {l : LearnerId} {learner : Learner}
    (hl : p.learners.find? l = some learner) (hzero : learner.references = 0) :
    l ∉ p.memberships := by
  rw [← List.count_eq_zero, (h.learner l learner hl).2, hzero]

theorem Filed.newTeam (h : Filed p) {t : TeamId} (hfree : p.teams.find? t = none)
    (hteams : q.teams = p.teams.insert t (.new t)) (hlearners : q.learners = p.learners) :
    Filed q := by
  have htargets : q.actionTargets = p.actionTargets := by rw [actionTargets, hlearners]; rfl
  have hmembers : q.memberships.Perm p.memberships := by
    rw [memberships, hteams]
    exact (OrderedMap.perm_values_insert (Team.new t) hfree).flatMap_right Team.members
  refine ⟨fun u hu => ?_, fun l hl => ?_, fun u team hteam => ?_, fun l learner hl => ?_⟩
  · rw [htargets] at hu
    rw [hteams, OrderedMap.contains_insert]
    exact .inr (h.target_live u hu)
  · rw [hlearners]
    exact h.member_live l (hmembers.mem_iff.1 hl)
  · rw [hteams, OrderedMap.find?_insert] at hteam
    by_cases hut : u = t
    · subst hut
      obtain rfl : Team.new u = team := by simpa using hteam
      rw [htargets]
      exact ⟨rfl, h.count_target hfree⟩
    · rw [htargets]
      exact h.team u team (by simpa [hut] using hteam)
  · rw [hlearners] at hl
    rw [hmembers.count_eq]
    exact h.learner l learner hl

/-- A new learner adds at most one edge to a team. -/
theorem perm_actionTargets {learner : Learner} (hfree : p.learners.find? learner.id = none)
    (hlearners : q.learners = p.learners.insert learner.id learner) :
    q.actionTargets.Perm (learner.action.target?.toList ++ p.actionTargets) := by
  have hvalues := OrderedMap.perm_values_insert learner hfree
  have hfilter := hvalues.filterMap fun l => l.action.target?
  rw [actionTargets, hlearners]
  refine hfilter.trans (List.Perm.of_eq ?_)
  rw [List.filterMap_cons]
  cases learner.action.target? <;> rfl

theorem Filed.newLearner (h : Filed p) {learner : Learner}
    (hfree : p.learners.find? learner.id = none) (hzero : learner.references = 0)
    (hlive : ∀ t, learner.action.target? = some t → p.teams.contains t = true)
    (hteams : q.teams = (p.retainTarget learner.action).teams)
    (hlearners : q.learners = p.learners.insert learner.id learner) : Filed q := by
  have htargets := perm_actionTargets hfree hlearners
  have hmembers : q.memberships = p.memberships := by
    rw [← memberships_retainTarget p learner.action, memberships, hteams]
  have hcontains (t : TeamId) : q.teams.contains t = p.teams.contains t := by
    rw [hteams, contains_retainTarget]
  refine ⟨fun u hu => ?_, fun l hl => ?_, fun u team hteam => ?_, fun l k hl => ?_⟩
  · rw [hcontains]
    rcases List.mem_append.1 (htargets.mem_iff.1 hu) with hu | hu
    · exact hlive u (by simpa using hu)
    · exact h.target_live u hu
  · rw [hmembers] at hl
    rw [hlearners, OrderedMap.contains_insert]
    exact .inr (h.member_live l hl)
  · rw [hteams, find?_retainTarget, Option.map_eq_some_iff] at hteam
    obtain ⟨old, hold, rfl⟩ := hteam
    obtain ⟨hid, hcount⟩ := h.team u old hold
    rw [htargets.count_eq, List.count_append, hcount]
    cases htarget : learner.action.target? with
    | none => simpa using hid
    | some t =>
      by_cases htu : t = u
      · subst htu
        simp [hid, Nat.add_comm]
      · simp [htu, hid]
  · rw [hmembers]
    rw [hlearners, OrderedMap.find?_insert] at hl
    by_cases hlk : l = learner.id
    · subst hlk
      obtain rfl : learner = k := by simpa using hl
      exact ⟨rfl, (h.count_member hfree).trans hzero.symm⟩
    · exact h.learner l k (by simpa [hlk] using hl)

/-- A creation keeps both invariants, as long as it leaves words: the number it gives out is free and the
next one is too. -/
theorem Grown.keeps (h : Grown p reply q) (hf : Filed p) (hn : Numbered p)
    (hteam : FitsWord q.counters.nextTeam) (hlearner : FitsWord q.counters.nextLearner) :
    Filed q ∧ Numbered q := by
  cases h with
  | refused hteams hlearners hnextTeam hnextLearner =>
    obtain ⟨settings, ranges, counters, teams, learners⟩ := q
    cases hteams
    cases hlearners
    refine ⟨⟨hf.target_live, hf.member_live, hf.team, hf.learner⟩, fun t ht => ?_, fun l hl => ?_⟩
    · exact hnextTeam ▸ hn.team_lt t ht
    · exact hnextLearner ▸ hn.learner_lt l hl
  | @team t _ ht hteams hlearners hnextTeam hnextLearner =>
    have hfree := hn.find?_team ht (hnextTeam ▸ hteam)
    refine ⟨hf.newTeam hfree hteams hlearners, fun u hu hfits => ?_, fun l hl => ?_⟩
    · rw [hteams, OrderedMap.contains_insert] at hu
      rcases hu with rfl | hu
      · omega
      · have hlt := hn.team_lt u hu hfits
        omega
    · rw [hlearners] at hl
      exact hnextLearner ▸ hn.learner_lt l hl
  | @learner learner _ hl hzero hlive hteams hlearners hnextTeam hnextLearner =>
    have hfree := hn.find?_learner hl (hnextLearner ▸ hlearner)
    refine ⟨hf.newLearner hfree hzero hlive hteams hlearners, fun u hu => ?_, fun l hk hfits => ?_⟩
    · rw [hteams, contains_retainTarget] at hu
      exact hnextTeam ▸ hn.team_lt u hu
    · rw [hlearners, OrderedMap.contains_insert] at hk
      rcases hk with rfl | hk
      · omega
      · have hlt := hn.learner_lt l hk hfits
        omega

/-- What a creation gives out that leaves words, no live node has. -/
theorem Grown.fresh (h : Grown p reply q) (hn : Numbered p)
    (hteam : FitsWord q.counters.nextTeam) (hlearner : FitsWord q.counters.nextLearner) :
    (∀ t, reply = .newTeam t → p.teams.contains t = false) ∧
      ∀ l, reply = .newLearner l → p.learners.contains l = false := by
  cases h with
  | refused => exact ⟨fun _ h => (by cases h), fun _ h => (by cases h)⟩
  | team ht hteams hlearners hnextTeam =>
    refine ⟨fun t h => ?_, fun _ h => (by cases h)⟩
    cases h
    rw [OrderedMap.contains, hn.find?_team ht (hnextTeam ▸ hteam)]
    rfl
  | learner hl hreferences hlive hteams hlearners hnextTeam hnextLearner =>
    refine ⟨fun _ h => (by cases h), fun l h => ?_⟩
    cases h
    rw [OrderedMap.contains, hn.find?_learner hl (hnextLearner ▸ hlearner)]
    rfl

theorem Grown.counters_le (h : Grown p reply q) : p.counters.nextTeam ≤ q.counters.nextTeam ∧
    p.counters.nextLearner ≤ q.counters.nextLearner := by
  cases h <;> omega

/-- However many teams and learners are made from here on, as long as all counters are words, none gets
the number of a live node, and the recount accepts every population on the way. -/
def CreatesFresh (p : Population) : Prop :=
  ∀ q, Run (fun c => c.creates = true) p q → q.counters.Fits → q.checkReferences = .ok () ∧
    ∀ (c : Command) (source source' : Source) (reply : Reply) (q' : Population), c.creates = true →
      c.perform q source = .ok ((reply, q'), source') → q'.counters.Fits →
      (∀ t, reply = .newTeam t → q.teams.contains t = false) ∧
      ∀ l, reply = .newLearner l → q.learners.contains l = false

theorem Run.filed (h : Run (fun c => c.creates = true) p q) (hf : Filed p) (hn : Numbered p)
    (hteam : FitsWord q.counters.nextTeam) (hlearner : FitsWord q.counters.nextLearner) :
    Filed q ∧ Numbered q := by
  induction h with
  | start => exact ⟨hf, hn⟩
  | @step q q' c reply source source' _ hc hperform ih =>
    have hgrown := grown_perform hc q source (reply, q') source' hperform
    obtain ⟨hteams, hlearners⟩ := hgrown.counters_le
    obtain ⟨hfq, hnq⟩ := ih (hteams.trans_lt hteam) (hlearners.trans_lt hlearner)
    exact hgrown.keeps hfq hnq hteam hlearner

/-- New teams reach the number of any live team that the counter has not passed. -/
theorem CreatesFresh.team_lt (h : CreatesFresh p) {t : TeamId} (ht : FitsWord (t.index + 1))
    (n : Nat) : ∀ q, Run (fun c => c.creates = true) p q → q.counters.Fits →
      q.teams.contains t = true → q.counters.nextTeam + n ≠ t.index := by
  induction n with
  | zero =>
    intro q hrun hfits hlive hindex
    have hnew : q.addTeam.1 = t := congrArg Id.mk hindex
    have hnextFits : FitsWord (q.counters.nextTeam + 1) := by omega
    have hfresh := ((h q hrun hfits).2 .addTeam ⟨fun _ => 0, 0, 0⟩ _ _ _ rfl rfl
      ⟨hfits.1, hfits.2.1, hnextFits⟩).1 q.addTeam.1 rfl
    rw [hnew, hlive] at hfresh
    cases hfresh
  | succ n ih =>
    intro q hrun hfits hlive hindex
    have hnextFits : FitsWord (q.counters.nextTeam + 1) := by omega
    have hperform : Command.addTeam.perform q ⟨fun _ => 0, 0, 0⟩ =
        .ok ((.newTeam q.addTeam.1, q.addTeam.2), ⟨fun _ => 0, 0, 0⟩) := rfl
    have hnext : Run (fun c => c.creates = true) p q.addTeam.2 := hrun.step rfl hperform
    have hlive' : q.addTeam.2.teams.contains t = true :=
      (OrderedMap.contains_insert ..).2 (.inr hlive)
    refine ih q.addTeam.2 hnext ⟨hfits.1, hfits.2.1, hnextFits⟩ hlive' ?_
    change q.counters.nextTeam + 1 + n = t.index
    omega

theorem CreatesFresh.learner_lt (h : CreatesFresh p) {l : LearnerId} (hl : FitsWord (l.index + 1))
    (n : Nat) : ∀ q, Run (fun c => c.creates = true) p q → q.counters.Fits →
      q.learners.contains l = true → q.counters.nextLearner + n ≠ l.index := by
  let create : Command := .addLearnerWith ⟨⟨0⟩, []⟩ (.atomic (.label 0)) .full 0
  induction n with
  | zero =>
    intro q hrun hfits hlive hindex
    have hnew : (⟨q.counters.nextLearner⟩ : LearnerId) = l := congrArg Id.mk hindex
    have hnextFits : FitsWord (q.counters.nextLearner + 1) := by omega
    have hfresh := ((h q hrun hfits).2 create ⟨fun _ => 0, 0, 0⟩ _ _ _ rfl rfl
      ⟨hfits.1, hnextFits, hfits.2.2⟩).2 ⟨q.counters.nextLearner⟩ rfl
    rw [hnew, hlive] at hfresh
    cases hfresh
  | succ n ih =>
    intro q hrun hfits hlive hindex
    have hnextFits : FitsWord (q.counters.nextLearner + 1) := by omega
    let e := q.addLearnerWith ⟨⟨0⟩, []⟩ (.atomic (.label 0)) .full 0
    have hperform : create.perform q ⟨fun _ => 0, 0, 0⟩ =
        .ok ((.newLearner ⟨q.counters.nextLearner⟩, e.population), ⟨fun _ => 0, 0, 0⟩) := rfl
    have hnext : Run (fun c => c.creates = true) p e.population := hrun.step rfl hperform
    have hlive' : e.population.learners.contains l = true :=
      (OrderedMap.contains_insert ..).2 (.inr hlive)
    refine ih e.population hnext ⟨hfits.1, hnextFits, hfits.2.2⟩ hlive' ?_
    change q.counters.nextLearner + 1 + n = l.index
    omega

theorem createsFresh_iff (hf : Filed p) (hfits : p.counters.Fits) : CreatesFresh p ↔ Numbered p := by
  constructor
  · intro h
    refine ⟨fun t ht hword => ?_, fun l hl hword => ?_⟩
    · by_contra hle
      exact h.team_lt hword (t.index - p.counters.nextTeam) p .start hfits ht (by omega)
    · by_contra hle
      exact h.learner_lt hword (l.index - p.counters.nextLearner) p .start hfits hl (by omega)
  · intro hn q hrun ⟨_, hlearner, hteam⟩
    obtain ⟨hfq, hnq⟩ := hrun.filed hf hn hteam hlearner
    refine ⟨hfq.checkReferences, fun c source source' reply q' hc hperform hq' => ?_⟩
    exact (grown_perform hc q source (reply, q') source' hperform).fresh hnq hq'.2.2 hq'.2.1

end Invariants

end Population

end TangledPrograms
