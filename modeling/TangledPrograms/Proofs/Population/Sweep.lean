import TangledPrograms.Proofs.Population.Refusal

/-!
# Sweeping out what nothing refers to

In a population that the recount accepts, no removal of a free node is refused, and it keeps all
other free nodes free. So free nodes can be removed in any order. What is left has the edges of the
nodes that are left, and as counts follow from edges, the order leaves no trace.
-/

namespace TangledPrograms

def Team.uncounted (t : Team) : Team := { t with references := 0 }

def Learner.uncounted (l : Learner) : Learner := { l with references := 0 }

theorem Team.eq_of_uncounted {a b : Team} (h : a.uncounted = b.uncounted)
    (hreferences : a.references = b.references) : a = b := by
  cases a
  cases b
  simp_all [uncounted]

theorem Learner.eq_of_uncounted {a b : Learner} (h : a.uncounted = b.uncounted)
    (hreferences : a.references = b.references) : a = b := by
  cases a
  cases b
  simp_all [uncounted]

def Edited.void {α : Type} : Edited α → Edited Unit
  | .done _ p => .done () p
  | .refused e p => .refused e p

namespace Population

def remove (p : Population) : Node → Edited Unit
  | .team t => (p.removeTeam t).void
  | .learner l => (p.removeLearner l).void

def removeAll : List Node → Population → Edited Unit
  | [], p => .done () p
  | n :: ns, p =>
    match p.remove n with
    | .refused e q => .refused e q
    | .done () q => removeAll ns q

def Free (p : Population) : Node → Prop
  | .team t => ∃ team, p.teams.find? t = some team ∧ team.references = 0
  | .learner l => ∃ learner, p.learners.find? l = some learner ∧ learner.references = 0

/-- The nodes `ns` are gone from `q`. All else is there as it is in `p`, up to counts. -/
structure Without (p : Population) (ns : List Node) (q : Population) : Prop where
  settings : q.settings = p.settings
  ranges : q.ranges = p.ranges
  counters : q.counters = p.counters
  team : ∀ t, (q.teams.find? t).map Team.uncounted =
    if .team t ∈ ns then none else (p.teams.find? t).map Team.uncounted
  learner : ∀ l, (q.learners.find? l).map Learner.uncounted =
    if .learner l ∈ ns then none else (p.learners.find? l).map Learner.uncounted

variable {p q r : Population} {ns ms : List Node}

namespace Without

theorem refl (p : Population) : p.Without [] p := ⟨rfl, rfl, rfl, by simp, by simp⟩

theorem trans (h : p.Without ns q) (h' : q.Without ms r) : p.Without (ns ++ ms) r where
  settings := h'.settings.trans h.settings
  ranges := h'.ranges.trans h.ranges
  counters := h'.counters.trans h.counters
  team t := by
    rw [h'.team, h.team]
    by_cases hms : Node.team t ∈ ms <;> by_cases hns : Node.team t ∈ ns <;> simp [hms, hns]
  learner l := by
    rw [h'.learner, h.learner]
    by_cases hms : Node.learner l ∈ ms <;> by_cases hns : Node.learner l ∈ ns <;> simp [hms, hns]

/-- What is left of the same population without the same nodes differs in counts only. -/
theorem alike (h : p.Without ns q) (h' : p.Without ms r) (hperm : ns.Perm ms) : q.Without [] r where
  settings := h'.settings.trans h.settings.symm
  ranges := h'.ranges.trans h.ranges.symm
  counters := h'.counters.trans h.counters.symm
  team t := by simp only [h'.team, h.team, hperm.mem_iff, List.not_mem_nil, if_false]
  learner l := by simp only [h'.learner, h.learner, hperm.mem_iff, List.not_mem_nil, if_false]

theorem memberships_eq (h : p.Without ns q) (hns : ∀ t, Node.team t ∉ ns) :
    q.memberships = p.memberships := by
  have hmembers : q.teams.mapValues Team.members = p.teams.mapValues Team.members := by
    apply OrderedMap.ext_find?
    intro t
    have hteam := congrArg (Option.map Team.members) (h.team t)
    rw [if_neg (hns t), Option.map_map, Option.map_map] at hteam
    rw [OrderedMap.find?_mapValues, OrderedMap.find?_mapValues]
    exact hteam
  have hvalues := congrArg (fun m => m.values.flatten) hmembers
  simpa only [memberships, OrderedMap.values_mapValues, ← List.flatMap_def] using hvalues

theorem actionTargets_eq (h : p.Without ns q) (hns : ∀ l, Node.learner l ∉ ns) :
    q.actionTargets = p.actionTargets := by
  have hactions : q.learners.mapValues Learner.action = p.learners.mapValues Learner.action := by
    apply OrderedMap.ext_find?
    intro l
    have hlearner := congrArg (Option.map Learner.action) (h.learner l)
    rw [if_neg (hns l), Option.map_map, Option.map_map] at hlearner
    rw [OrderedMap.find?_mapValues, OrderedMap.find?_mapValues]
    exact hlearner
  have hvalues := congrArg (fun m => m.values.filterMap Action.target?) hactions
  simp only [OrderedMap.values_mapValues, List.filterMap_map] at hvalues
  exact hvalues

end Without

/-- Counts follow from edges. -/
theorem Filed.eq_of_without (hp : Filed p) (hq : Filed q) (h : p.Without [] q) : q = p := by
  have htargets := h.actionTargets_eq (by simp)
  have hmembers := h.memberships_eq (by simp)
  have hteams : q.teams = p.teams := by
    apply OrderedMap.ext_map h.team
    intro t after before hafter hbefore halike
    have hcount := (hq.team t after hafter).2
    rw [htargets, (hp.team t before hbefore).2] at hcount
    exact Team.eq_of_uncounted halike hcount.symm
  have hlearners : q.learners = p.learners := by
    apply OrderedMap.ext_map h.learner
    intro l after before hafter hbefore halike
    have hcount := (hq.learner l after hafter).2
    rw [hmembers, (hp.learner l before hbefore).2] at hcount
    exact Learner.eq_of_uncounted halike hcount.symm
  obtain ⟨settings, ranges, counters, teams, learners⟩ := q
  cases h.settings
  cases h.ranges
  cases h.counters
  cases hteams
  cases hlearners
  rfl

section removals

theorem Filed.find?_member (h : Filed p) {t : TeamId} {team : Team}
    (ht : p.teams.find? t = some team) : ∀ l ∈ team.members,
      ∃ learner, p.learners.find? l = some learner ∧ learner.references ≠ 0 := by
  intro l hl
  have hmem : l ∈ p.memberships := mem_memberships_iff.2 ⟨t, team, ht, hl⟩
  obtain ⟨learner, hlearner⟩ := OrderedMap.contains_iff.1 (h.member_live l hmem)
  refine ⟨learner, hlearner, ?_⟩
  rw [← (h.learner l learner hlearner).2]
  exact Nat.ne_of_gt (List.count_pos_iff.2 hmem)

/-- Without a team that no action leads to, its members' counts go down by its listings. -/
theorem Filed.withoutTeam (h : Filed p) {t : TeamId} {team : Team}
    (ht : p.teams.find? t = some team) (hzero : team.references = 0)
    (hwithout : p.Without [.team t] q) (hteams : q.teams = p.teams.erase t)
    (hlearners : ∀ l, q.learners.find? l = (p.learners.find? l).map fun learner =>
      { learner with references := learner.references - team.members.count l }) : Filed q := by
  have htargets : q.actionTargets = p.actionTargets := hwithout.actionTargets_eq (by simp)
  have hmembers : p.memberships.Perm (team.members ++ q.memberships) := by
    have hvalues := (OrderedMap.perm_erase ht).map Prod.snd
    rw [memberships, memberships, hteams]
    exact hvalues.flatMap_right Team.members
  constructor
  · intro u hu
    rw [htargets] at hu
    rw [hteams, OrderedMap.contains_erase]
    exact ⟨fun hut => h.not_mem_actionTargets ht hzero (hut ▸ hu), h.target_live u hu⟩
  · intro l hl
    have hlive := h.member_live l (hmembers.mem_iff.2 (List.mem_append_right _ hl))
    rw [OrderedMap.contains, hlearners, Option.isSome_map]
    exact hlive
  · intro u other hu
    rw [hteams, OrderedMap.find?_erase] at hu
    split at hu
    · cases hu
    · rw [htargets]
      exact h.team u other hu
  · intro l after hl
    rw [hlearners, Option.map_eq_some_iff] at hl
    obtain ⟨before, hbefore, rfl⟩ := hl
    obtain ⟨hid, hcount⟩ := h.learner l before hbefore
    rw [hmembers.count_eq, List.count_append] at hcount
    refine ⟨hid, ?_⟩
    change _ = before.references - team.members.count l
    omega

/-- Without a learner that no team lists, its target's count goes down by one. -/
theorem Filed.withoutLearner (h : Filed p) {l : LearnerId} {learner : Learner}
    (hl : p.learners.find? l = some learner) (hzero : learner.references = 0)
    (hwithout : p.Without [.learner l] q) (hlearners : q.learners = p.learners.erase l)
    (hteams : ∀ t, q.teams.find? t = (p.teams.find? t).map fun team =>
      if learner.action.target? = some t then { team with references := team.references - 1 }
      else team) : Filed q := by
  have hmembers : q.memberships = p.memberships := hwithout.memberships_eq (by simp)
  have htargets : p.actionTargets.Perm (learner.action.target?.toList ++ q.actionTargets) := by
    have hvalues := (OrderedMap.perm_erase hl).map Prod.snd
    rw [actionTargets, actionTargets, hlearners]
    refine (hvalues.filterMap _).trans (List.Perm.of_eq ?_)
    rw [List.map_cons, List.filterMap_cons]
    cases learner.action.target? <;> rfl
  constructor
  · intro t ht
    have hlive := h.target_live t (htargets.mem_iff.2 (List.mem_append_right _ ht))
    rw [OrderedMap.contains, hteams, Option.isSome_map]
    exact hlive
  · intro k hk
    rw [hmembers] at hk
    rw [hlearners, OrderedMap.contains_erase]
    exact ⟨fun hkl => h.not_mem_memberships hl hzero (hkl ▸ hk), h.member_live k hk⟩
  · intro t after ht
    rw [hteams, Option.map_eq_some_iff] at ht
    obtain ⟨before, hbefore, rfl⟩ := ht
    obtain ⟨hid, hcount⟩ := h.team t before hbefore
    rw [htargets.count_eq, List.count_append] at hcount
    by_cases htarget : learner.action.target? = some t
    · simp only [htarget, Option.toList_some, List.count_singleton_self] at hcount
      rw [if_pos htarget]
      exact ⟨hid, show _ = before.references - 1 by omega⟩
    · have hzero' : learner.action.target?.toList.count t = 0 := by simpa [List.count_eq_zero]
      rw [if_neg htarget]
      exact ⟨hid, by omega⟩
  · intro k other hk
    rw [hlearners, OrderedMap.find?_erase] at hk
    split at hk
    · cases hk
    · rw [hmembers]
      exact h.learner k other hk

theorem without_removeTeam (p : Population) (t : TeamId) (ls : List LearnerId) :
    p.Without [.team t] (ls.foldl releaseLearner { p with teams := p.teams.erase t }) where
  settings := by rw [foldl_releaseLearner]
  ranges := by rw [foldl_releaseLearner]
  counters := by rw [foldl_releaseLearner]
  team u := by
    rw [foldl_releaseLearner]
    by_cases hu : u = t <;> simp [OrderedMap.find?_erase, hu]
  learner l := by
    rw [find?_foldl_releaseLearner, Option.map_map]
    simp
    rfl

theorem without_removeLearner (p : Population) (l : LearnerId) (a : Action) :
    p.Without [.learner l] (releaseTarget { p with learners := p.learners.erase l } a) where
  settings := settings_releaseTarget ..
  ranges := by cases ha : a.target? <;> simp [releaseTarget, ha, releaseTeam, modifyTeam]
  counters := counters_releaseTarget ..
  team t := by
    rw [find?_releaseTarget, Option.map_map]
    have huncounted (team : Team) : Team.uncounted (if a.target? = some t then
        { team with references := team.references - 1 } else team) = team.uncounted := by
      split <;> rfl
    simp [Function.comp_def, huncounted]
  learner k := by
    rw [learners_releaseTarget]
    by_cases hk : k = l <;> simp [OrderedMap.find?_erase, hk]

/-- A free node can be removed, and other free nodes stay so. -/
theorem Filed.remove (h : Filed p) {n : Node} (hn : p.Free n) : ∃ q, p.remove n = .done () q ∧
    Filed q ∧ p.Without [n] q ∧ ∀ m, m ≠ n → p.Free m → q.Free m := by
  cases n with
  | team t =>
    obtain ⟨team, ht, hzero⟩ := hn
    let q := team.members.foldl releaseLearner { p with teams := p.teams.erase t }
    have hdone : p.removeTeam t = .done team q :=
      p.removeTeam_of_counts ht hzero (h.find?_member ht)
    have hwithout : p.Without [.team t] q := p.without_removeTeam t team.members
    have hteams : q.teams = p.teams.erase t := congrArg teams (foldl_releaseLearner ..)
    have hlearners (l : LearnerId) : q.learners.find? l = (p.learners.find? l).map _ :=
      find?_foldl_releaseLearner team.members _ l
    refine ⟨q, congrArg Edited.void hdone, h.withoutTeam ht hzero hwithout hteams hlearners,
      hwithout, fun m hm hfree => ?_⟩
    cases m with
    | team u =>
      obtain ⟨other, hu, hother⟩ := hfree
      have hne : u ≠ t := fun e => hm (e ▸ rfl)
      exact ⟨other, by rw [hteams, OrderedMap.find?_erase]; simpa [hne] using hu, hother⟩
    | learner l =>
      obtain ⟨learner, hl, hlearner⟩ := hfree
      exact ⟨_, by rw [hlearners, hl]; rfl, by simp [hlearner]⟩
  | learner l =>
    obtain ⟨learner, hl, hzero⟩ := hn
    let q := releaseTarget { p with learners := p.learners.erase l } learner.action
    have hdone : p.removeLearner l = .done learner q :=
      p.removeLearner_of_counts hl hzero (h.counts hl)
    have hwithout : p.Without [.learner l] q := p.without_removeLearner l learner.action
    have hlearners : q.learners = p.learners.erase l := learners_releaseTarget ..
    have hteams (t : TeamId) : q.teams.find? t = (p.teams.find? t).map _ :=
      find?_releaseTarget _ learner.action t
    refine ⟨q, congrArg Edited.void hdone, h.withoutLearner hl hzero hwithout hlearners hteams,
      hwithout, fun m hm hfree => ?_⟩
    cases m with
    | team t =>
      obtain ⟨team, ht, hteam⟩ := hfree
      refine ⟨_, by rw [hteams, ht]; rfl, ?_⟩
      split <;> simp [hteam]
    | learner k =>
      obtain ⟨other, hk, hother⟩ := hfree
      have hne : k ≠ l := fun e => hm (e ▸ rfl)
      exact ⟨other, by rw [hlearners, OrderedMap.find?_erase]; simpa [hne] using hk, hother⟩

/-- Free nodes can be removed one after the other. -/
theorem Filed.removeAll (h : Filed p) (hns : ns.Nodup) (hfree : ∀ n ∈ ns, p.Free n) :
    ∃ q, p.removeAll ns = .done () q ∧ Filed q ∧ p.Without ns q := by
  induction ns generalizing p with
  | nil => exact ⟨p, rfl, h, .refl p⟩
  | cons n ns ih =>
    obtain ⟨hn, hns⟩ := List.nodup_cons.1 hns
    obtain ⟨hhead, htail⟩ := List.forall_mem_cons.1 hfree
    obtain ⟨q, hdone, hq, hwithout, hkeeps⟩ := h.remove hhead
    have hrest : ∀ m ∈ ns, q.Free m := fun m hm =>
      hkeeps m (fun e => hn (e ▸ hm)) (htail m hm)
    obtain ⟨r, hdone', hr, hwithout'⟩ := ih hq hns hrest
    refine ⟨r, ?_, hr, hwithout.trans hwithout'⟩
    simp only [Population.removeAll, hdone]
    exact hdone'

/-- The order in which they are removed leaves no trace. -/
theorem Filed.removeAll_perm (h : Filed p) (hns : ns.Nodup) (hfree : ∀ n ∈ ns, p.Free n) :
    ∃ q, (∀ ms : List Node, ms.Perm ns → p.removeAll ms = .done () q) ∧ Filed q ∧
      p.Without ns q := by
  obtain ⟨q, -, hq, hwithout⟩ := h.removeAll hns hfree
  refine ⟨q, fun ms hperm => ?_, hq, hwithout⟩
  obtain ⟨r, hdone, hr, hwithout'⟩ := h.removeAll (hperm.nodup_iff.2 hns) fun n hn =>
    hfree n (hperm.mem_iff.1 hn)
  rw [hdone, hq.eq_of_without hr (hwithout.alike hwithout' hperm.symm)]

end removals

section unreferenced

theorem Filed.free_of_mem_unreferencedTeams (h : Filed p) {t : TeamId}
    (ht : t ∈ p.unreferencedTeams) : p.Free (.team t) := by
  obtain ⟨team, hmem, rfl⟩ := List.mem_map.1 ht
  obtain ⟨hvalue, hzero⟩ := List.mem_filter.1 hmem
  obtain ⟨u, hu⟩ := OrderedMap.mem_values_iff.1 hvalue
  rw [(h.team u team hu).1]
  exact ⟨team, hu, of_decide_eq_true hzero⟩

theorem Filed.free_of_mem_unreferencedLearners (h : Filed p) {l : LearnerId}
    (hl : l ∈ p.unreferencedLearners) : p.Free (.learner l) := by
  obtain ⟨learner, hmem, rfl⟩ := List.mem_map.1 hl
  obtain ⟨hvalue, hzero⟩ := List.mem_filter.1 hmem
  obtain ⟨k, hk⟩ := OrderedMap.mem_values_iff.1 hvalue
  rw [(h.learner k learner hk).1]
  exact ⟨learner, hk, of_decide_eq_true hzero⟩

theorem Filed.mem_unreferencedLearners (h : Filed p) {l : LearnerId} {learner : Learner}
    (hl : p.learners.find? l = some learner) (hzero : learner.references = 0) :
    l ∈ p.unreferencedLearners := by
  have hvalue := OrderedMap.mem_values_iff.2 ⟨l, hl⟩
  exact List.mem_map.2 ⟨learner, List.mem_filter.2 ⟨hvalue, by simpa⟩, (h.learner l learner hl).1⟩

theorem Filed.nodup_unreferencedTeams (h : Filed p) : p.unreferencedTeams.Nodup :=
  (OrderedMap.nodup_map_values fun t team ht => (h.team t team ht).1).sublist
    (List.filter_sublist.map Team.id)

theorem Filed.nodup_unreferencedLearners (h : Filed p) : p.unreferencedLearners.Nodup :=
  (OrderedMap.nodup_map_values fun l learner hl => (h.learner l learner hl).1).sublist
    (List.filter_sublist.map Learner.id)

/-- Once the unreferenced learners are gone, some team lists each learner that is left. -/
theorem Filed.exists_listing (hq : Filed q)
    (h : q.Without (q.unreferencedLearners.map .learner) r) {l : LearnerId}
    (hl : r.learners.contains l = true) :
    ∃ t team, r.teams.find? t = some team ∧ l ∈ team.members := by
  obtain ⟨after, hafter⟩ := OrderedMap.contains_iff.1 hl
  have halike := h.learner l
  rw [hafter] at halike
  split at halike
  · cases halike
  · rename_i hkept
    obtain ⟨before, hbefore, -⟩ := Option.map_eq_some_iff.1 halike.symm
    have hcount : before.references ≠ 0 := fun hzero =>
      hkept (List.mem_map_of_mem (hq.mem_unreferencedLearners hbefore hzero))
    rw [← (hq.learner l before hbefore).2, ← h.memberships_eq (by simp)] at hcount
    exact mem_memberships_iff.1 (List.count_pos_iff.1 (Nat.pos_of_ne_zero hcount))

end unreferenced

/-- Of a population that the recount accepts, the unreferenced teams can all be removed, in any order
and with one result; and then all learners that are unreferenced there, in any order and with one
result. The recount accepts what is left: the population without these nodes, up to counts, where some
team lists each learner. -/
theorem sweep_done (hkeyed : p.Keyed) (hcheck : p.checkReferences = .ok ()) : ∃ q r : Population,
    (∀ ts : List TeamId, ts.Perm p.unreferencedTeams → p.removeAll (ts.map .team) = .done () q) ∧
    (∀ ls : List LearnerId, ls.Perm q.unreferencedLearners →
      q.removeAll (ls.map .learner) = .done () r) ∧
    r.checkReferences = .ok () ∧
    p.Without (p.unreferencedTeams.map .team ++ q.unreferencedLearners.map .learner) r ∧
    ∀ l, r.learners.contains l = true →
      ∃ t team, r.teams.find? t = some team ∧ l ∈ team.members := by
  have hp := hkeyed.filed hcheck
  obtain ⟨q, hteams, hq, hwithout⟩ := hp.removeAll_perm
    (hp.nodup_unreferencedTeams.map fun _ _ => Node.team.inj)
    (List.forall_mem_map.2 fun _ => hp.free_of_mem_unreferencedTeams)
  obtain ⟨r, hlearners, hr, hwithout'⟩ := hq.removeAll_perm
    (hq.nodup_unreferencedLearners.map fun _ _ => Node.learner.inj)
    (List.forall_mem_map.2 fun _ => hq.free_of_mem_unreferencedLearners)
  refine ⟨q, r, fun ts hts => hteams _ (hts.map _), fun ls hls => hlearners _ (hls.map _),
    hr.checkReferences, hwithout.trans hwithout', fun l => hq.exists_listing hwithout'⟩

/-- Three teams and three learners. Team 0 is the action of learner 2, which is on no team; the
other teams are no learner's action, and share learners with team 0 and with each other. -/
def layered : Population where
  settings := {}
  ranges := .ofSettings {}
  counters := ⟨3, 3, 3⟩
  teams := .ofList [(⟨0⟩, ⟨⟨0⟩, [⟨0⟩], 1, .empty⟩), (⟨1⟩, ⟨⟨1⟩, [⟨0⟩, ⟨1⟩], 0, .empty⟩),
    (⟨2⟩, ⟨⟨2⟩, [⟨1⟩], 0, .empty⟩)]
  learners := .ofList [
    (⟨0⟩, ⟨⟨0⟩, ⟨⟨0⟩, [⟨1, 0, 0, 0, 0, 0⟩]⟩, .scalar, .full, 0, .atomic (.label 7), 2, 8, []⟩),
    (⟨1⟩, ⟨⟨1⟩, ⟨⟨1⟩, [⟨1, 0, 0, 0, 0, 0⟩]⟩, .scalar, .full, 0, .atomic (.label 8), 2, 8, []⟩),
    (⟨2⟩, ⟨⟨2⟩, ⟨⟨2⟩, [⟨1, 0, 0, 0, 0, 0⟩]⟩, .scalar, .full, 0, .team ⟨0⟩, 0, 8, []⟩)]

/-- Two teams go, then the learner that only they listed and the one that no team listed. -/
theorem layered_sweep : layered.Keyed ∧ layered.checkReferences = .ok () ∧ ∃ q r : Population,
    layered.removeAll [.team ⟨1⟩, .team ⟨2⟩] = .done () q ∧
    layered.removeAll [.team ⟨2⟩, .team ⟨1⟩] = .done () q ∧
    q.removeAll [.learner ⟨1⟩, .learner ⟨2⟩] = .done () r ∧
    q.removeAll [.learner ⟨2⟩, .learner ⟨1⟩] = .done () r ∧
    r.checkReferences = .ok () ∧
    ∀ l, r.learners.contains l = true →
      ∃ t team, r.teams.find? t = some team ∧ l ∈ team.members := by
  have hkeyed : layered.Keyed := by decide
  have hcheck : layered.checkReferences = .ok () := rfl
  obtain ⟨q, r, hteams, hlearners, hleft, -, hlisted⟩ := sweep_done hkeyed hcheck
  have hfree : layered.unreferencedTeams = [⟨1⟩, ⟨2⟩] := rfl
  have hdone : layered.removeAll [.team ⟨1⟩, .team ⟨2⟩] = .done () q :=
    hteams [⟨1⟩, ⟨2⟩] (hfree ▸ .refl _)
  have hfree' : q.unreferencedLearners = [⟨1⟩, ⟨2⟩] := by
    have hq : (layered.removeAll [.team ⟨1⟩, .team ⟨2⟩]).population = q :=
      congrArg Edited.population hdone
    rw [← hq]
    rfl
  exact ⟨hkeyed, hcheck, q, r, hdone, hteams [⟨2⟩, ⟨1⟩] (hfree ▸ .swap ..),
    hlearners [⟨1⟩, ⟨2⟩] (hfree' ▸ .refl _), hlearners [⟨2⟩, ⟨1⟩] (hfree' ▸ .swap ..), hleft,
    hlisted⟩

end Population

end TangledPrograms
