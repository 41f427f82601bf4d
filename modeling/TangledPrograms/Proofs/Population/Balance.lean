import TangledPrograms.Proofs.Population.References

/-!
# Balanced populations

A population is balanced up to a surplus if its nodes sit under their own numbers, below the counters,
with edges to live nodes, and each carries its number of edges plus its surplus. Every elementary
change moves the surplus; a population without surplus is sound.
-/

namespace TangledPrograms

namespace Population

/-- A team in its place, with so many references more than there are edges. -/
structure TeamBalanced (p : Population) (t : TeamId) (team : Team) (surplus : Int) : Prop where
  id_eq : team.id = t
  id_lt : t.index < p.counters.nextTeam
  nodup : team.members.Nodup
  live : ∀ l ∈ team.members, p.learners.contains l = true
  count : (team.references : Int) = p.edgesTo t + surplus

/-- A learner in its place, with so many references more than there are memberships. -/
structure LearnerBalanced (p : Population) (l : LearnerId) (learner : Learner) (surplus : Int) :
    Prop where
  id_eq : learner.id = l
  id_lt : l.index < p.counters.nextLearner
  live : ∀ t, learner.action.target? = some t → p.teams.contains t = true
  count : (learner.references : Int) = p.listings l + surplus

/-- Every node is balanced up to its surplus. -/
structure Balanced (p : Population) (dt : TeamId → Int) (dl : LearnerId → Int) : Prop where
  team : ∀ t team, p.teams.find? t = some team → TeamBalanced p t team (dt t)
  learner : ∀ l learner, p.learners.find? l = some learner → LearnerBalanced p l learner (dl l)

/-- Every node carries exactly the number of edges that lead to it. -/
def Sound (p : Population) : Prop := Balanced p (fun _ => 0) fun _ => 0

/-- One if the condition holds, else zero. -/
abbrev indicator (c : Prop) [Decidable c] : Int := if c then 1 else 0

theorem cast_indicator (c : Prop) [Decidable c] : ((if c then 1 else 0 : Nat) : Int) = indicator c := by
  split <;> rfl

namespace Balanced

variable {p : Population} {dt dt' : TeamId → Int} {dl dl' : LearnerId → Int}

/-- Only the surplus of live nodes matters. -/
theorem congr (h : Balanced p dt dl)
    (ht : ∀ t team, p.teams.find? t = some team → dt t = dt' t)
    (hl : ∀ l learner, p.learners.find? l = some learner → dl l = dl' l) : Balanced p dt' dl' where
  team t team hteam := ht t team hteam ▸ h.team t team hteam
  learner l learner hlearner := hl l learner hlearner ▸ h.learner l learner hlearner

theorem modifyTeam (h : Balanced p dt dl) {t : TeamId} {team : Team}
    (ht : p.teams.find? t = some team) (f : Team → Team) (hid : (f team).id = team.id)
    (hnodup : (f team).members.Nodup)
    (hlive : ∀ l ∈ (f team).members, p.learners.contains l = true) :
    Balanced (p.modifyTeam t f)
      (fun u => dt u + if u = t then ((f team).references : Int) - team.references else 0)
      (fun l => dl l + indicator (l ∈ team.members) - indicator (l ∈ (f team).members)) where
  team u team' hu := by
    have hfind : (p.teams.modify t f).find? u = some team' := hu
    rw [OrderedMap.find?_modify] at hfind
    by_cases hut : u = t
    · subst hut
      obtain rfl : f team = team' := by simpa [ht] using hfind
      have hb := h.team u team ht
      refine ⟨hid.trans hb.id_eq, hb.id_lt, hnodup, hlive, ?_⟩
      have hcount := hb.count
      change ((f team).references : Int) = p.edgesTo u + _
      rw [if_pos rfl]
      omega
    · have hfind' : p.teams.find? u = some team' := by simpa [hut] using hfind
      have hb := h.team u team' hfind'
      refine ⟨hb.id_eq, hb.id_lt, hb.nodup, hb.live, ?_⟩
      rw [if_neg hut, Int.add_zero]
      exact hb.count
  learner l learner hl := by
    have hb := h.learner l learner hl
    refine ⟨hb.id_eq, hb.id_lt, fun u hu => ?_, ?_⟩
    · exact (OrderedMap.contains_modify p.teams t u f).trans (hb.live u hu)
    · have hcount := hb.count
      have hmoved := OrderedMap.countP_modify (fun u : Team => u.members.contains l) f ht
      change (learner.references : Int) =
        ((p.teams.modify t f).values.countP fun u => u.members.contains l) + _
      rw [listings] at hcount
      simp only [List.contains_iff_mem] at hmoved
      have hbefore := cast_indicator (l ∈ team.members)
      have hafter := cast_indicator (l ∈ (f team).members)
      omega

theorem modifyLearner (h : Balanced p dt dl) {l : LearnerId} {learner : Learner}
    (hl : p.learners.find? l = some learner) (f : Learner → Learner)
    (hid : (f learner).id = learner.id)
    (hlive : ∀ t, (f learner).action.target? = some t → p.teams.contains t = true) :
    Balanced (p.modifyLearner l f)
      (fun t => dt t + indicator (learner.action.target? = some t) -
        indicator ((f learner).action.target? = some t))
      (fun k => dl k + if k = l then ((f learner).references : Int) - learner.references else 0) where
  team t team ht := by
    have hb := h.team t team ht
    refine ⟨hb.id_eq, hb.id_lt, hb.nodup, fun k hk => ?_, ?_⟩
    · exact (OrderedMap.contains_modify p.learners l k f).trans (hb.live k hk)
    · have hcount := hb.count
      have hmoved := OrderedMap.countP_modify
        (fun k : Learner => decide (k.action.target? = some t)) f hl
      change (team.references : Int) =
        ((p.learners.modify l f).values.countP fun k => decide (k.action.target? = some t)) + _
      rw [edgesTo] at hcount
      simp only [decide_eq_true_eq] at hmoved
      have hbefore := cast_indicator (learner.action.target? = some t)
      have hafter := cast_indicator ((f learner).action.target? = some t)
      omega
  learner k learner' hk := by
    have hfind : (p.learners.modify l f).find? k = some learner' := hk
    rw [OrderedMap.find?_modify] at hfind
    by_cases hkl : k = l
    · subst hkl
      obtain rfl : f learner = learner' := by simpa [hl] using hfind
      have hb := h.learner k learner hl
      refine ⟨hid.trans hb.id_eq, hb.id_lt, hlive, ?_⟩
      have hcount := hb.count
      change ((f learner).references : Int) = p.listings k + _
      rw [if_pos rfl]
      omega
    · have hfind' : p.learners.find? k = some learner' := by simpa [hkl] using hfind
      have hb := h.learner k learner' hfind'
      refine ⟨hb.id_eq, hb.id_lt, hb.live, ?_⟩
      rw [if_neg hkl, Int.add_zero]
      exact hb.count

/-- A change of a team that keeps its number and its members moves its surplus only. -/
theorem shiftTeam (h : Balanced p dt dl) (t : TeamId) (f : Team → Team) (d : Int)
    (hf : ∀ team, p.teams.find? t = some team → (f team).id = team.id ∧
      (f team).members = team.members ∧ ((f team).references : Int) = team.references + d) :
    Balanced (p.modifyTeam t f) (fun u => dt u + if u = t then d else 0) dl := by
  cases ht : p.teams.find? t with
  | none =>
    rw [Population.modifyTeam, OrderedMap.modify_of_find?_eq_none f ht]
    refine h.congr (fun u team hu => ?_) fun _ _ _ => rfl
    have hut : u ≠ t := by
      rintro rfl
      rw [ht] at hu
      cases hu
    rw [if_neg hut, Int.add_zero]
  | some team =>
    obtain ⟨hid, hmembers, hreferences⟩ := hf team ht
    have hb := h.team t team ht
    refine (h.modifyTeam ht f hid (hmembers ▸ hb.nodup) (hmembers ▸ hb.live)).congr ?_ ?_
    · intro u _ _
      rw [hreferences]
      split <;> omega
    · intro l _ _
      rw [hmembers]
      omega

/-- A change of a learner that keeps its number and its action moves its surplus only. -/
theorem shiftLearner (h : Balanced p dt dl) (l : LearnerId) (f : Learner → Learner) (d : Int)
    (hf : ∀ learner, p.learners.find? l = some learner → (f learner).id = learner.id ∧
      (f learner).action = learner.action ∧ ((f learner).references : Int) = learner.references + d) :
    Balanced (p.modifyLearner l f) dt (fun k => dl k + if k = l then d else 0) := by
  cases hl : p.learners.find? l with
  | none =>
    rw [Population.modifyLearner, OrderedMap.modify_of_find?_eq_none f hl]
    refine h.congr (fun _ _ _ => rfl) fun k learner hk => ?_
    have hkl : k ≠ l := by
      rintro rfl
      rw [hl] at hk
      cases hk
    rw [if_neg hkl, Int.add_zero]
  | some learner =>
    obtain ⟨hid, haction, hreferences⟩ := hf learner hl
    have hb := h.learner l learner hl
    refine (h.modifyLearner hl f hid (haction ▸ hb.live)).congr ?_ ?_
    · intro t _ _
      rw [haction]
      omega
    · intro k _ _
      rw [hreferences]
      split <;> omega

theorem retainTeam (h : Balanced p dt dl) (t : TeamId) :
    Balanced (p.retainTeam t) (fun u => dt u + indicator (u = t)) dl :=
  h.shiftTeam t _ 1 fun _ _ => ⟨rfl, rfl, by simp⟩

theorem releaseTeam (h : Balanced p dt dl) {t : TeamId}
    (hpos : ∀ team, p.teams.find? t = some team → 0 < team.references) :
    Balanced (p.releaseTeam t) (fun u => dt u - indicator (u = t)) dl := by
  have hshift := h.shiftTeam t (fun team => { team with references := team.references - 1 }) (-1)
    fun team ht => ⟨rfl, rfl, by have := hpos team ht; simp only; omega⟩
  refine hshift.congr (fun u _ _ => ?_) fun _ _ _ => rfl
  simp only [indicator]
  split <;> omega

theorem retainLearner (h : Balanced p dt dl) (l : LearnerId) :
    Balanced (p.retainLearner l) dt (fun k => dl k + indicator (k = l)) :=
  h.shiftLearner l _ 1 fun _ _ => ⟨rfl, rfl, by simp⟩

theorem releaseLearner (h : Balanced p dt dl) {l : LearnerId}
    (hpos : ∀ learner, p.learners.find? l = some learner → 0 < learner.references) :
    Balanced (p.releaseLearner l) dt (fun k => dl k - indicator (k = l)) := by
  have hshift := h.shiftLearner l
    (fun learner => { learner with references := learner.references - 1 }) (-1)
    fun learner hl => ⟨rfl, rfl, by have := hpos learner hl; simp only; omega⟩
  refine hshift.congr (fun _ _ _ => rfl) fun k _ _ => ?_
  simp only [indicator]
  split <;> omega

theorem retainTarget (h : Balanced p dt dl) (a : Action) :
    Balanced (p.retainTarget a) (fun t => dt t + indicator (a.target? = some t)) dl := by
  simp only [Population.retainTarget]
  cases a.target? with
  | none => simpa [indicator] using h
  | some t => simpa [eq_comm] using h.retainTeam t

theorem releaseTarget (h : Balanced p dt dl) {a : Action}
    (hpos : ∀ t team, a.target? = some t → p.teams.find? t = some team → 0 < team.references) :
    Balanced (p.releaseTarget a) (fun t => dt t - indicator (a.target? = some t)) dl := by
  simp only [Population.releaseTarget]
  cases ha : a.target? with
  | none => simpa [indicator] using h
  | some t => simpa [eq_comm] using h.releaseTeam (hpos t · ha)

/-- The neutral changes. -/
theorem modifyTeam_of_same (h : Balanced p dt dl) (t : TeamId) (f : Team → Team)
    (hf : ∀ team, (f team).id = team.id ∧ (f team).members = team.members ∧
      (f team).references = team.references) : Balanced (p.modifyTeam t f) dt dl := by
  have hshift := h.shiftTeam t f 0 fun team _ => by simp [hf team]
  exact hshift.congr (fun _ _ _ => by simp) fun _ _ _ => rfl

theorem modifyLearner_of_same (h : Balanced p dt dl) (l : LearnerId) (f : Learner → Learner)
    (hf : ∀ learner, (f learner).id = learner.id ∧ (f learner).action = learner.action ∧
      (f learner).references = learner.references) : Balanced (p.modifyLearner l f) dt dl := by
  have hshift := h.shiftLearner l f 0 fun learner _ => by simp [hf learner]
  exact hshift.congr (fun _ _ _ => rfl) fun _ _ _ => by simp

theorem find?_of_le_nextTeam (h : Balanced p dt dl) {t : TeamId}
    (ht : p.counters.nextTeam ≤ t.index) : p.teams.find? t = none := by
  cases hteam : p.teams.find? t with
  | none => rfl
  | some team => exact absurd (h.team t team hteam).id_lt (Nat.not_lt.2 ht)

theorem find?_of_le_nextLearner (h : Balanced p dt dl) {l : LearnerId}
    (hl : p.counters.nextLearner ≤ l.index) : p.learners.find? l = none := by
  cases hlearner : p.learners.find? l with
  | none => rfl
  | some learner => exact absurd (h.learner l learner hlearner).id_lt (Nat.not_lt.2 hl)

/-- No edge leads to a team that is not live. -/
theorem edgesTo_eq_zero (h : Balanced p dt dl) {t : TeamId} (ht : p.teams.find? t = none) :
    p.edgesTo t = 0 := by
  refine List.countP_eq_zero.2 fun learner hmem htarget => ?_
  obtain ⟨l, hl⟩ := OrderedMap.mem_values_iff.1 hmem
  have hlive := (h.learner l learner hl).live t (by simpa using htarget)
  rw [OrderedMap.contains, ht] at hlive
  cases hlive

/-- No team lists a learner that is not live. -/
theorem listings_eq_zero (h : Balanced p dt dl) {l : LearnerId} (hl : p.learners.find? l = none) :
    p.listings l = 0 := by
  refine List.countP_eq_zero.2 fun team hmem hlisted => ?_
  obtain ⟨t, ht⟩ := OrderedMap.mem_values_iff.1 hmem
  have hlive := (h.team t team ht).live l (by simpa using hlisted)
  rw [OrderedMap.contains, hl] at hlive
  cases hlive

theorem insertLearner (h : Balanced p dt fun _ => 0) (l : LearnerId) (learner : Learner)
    (hl : p.counters.nextLearner = l.index) (hid : learner.id = l) (hzero : learner.references = 0)
    (hlive : ∀ t, learner.action.target? = some t → p.teams.contains t = true) :
    Balanced
      { p with
        counters := { p.counters with nextLearner := l.index + 1 }
        learners := p.learners.insert l learner }
      (fun t => dt t - indicator (learner.action.target? = some t)) fun _ => 0 where
  team t team ht := by
    have hb := h.team t team ht
    refine ⟨hb.id_eq, hb.id_lt, hb.nodup, fun k hk => ?_, ?_⟩
    · exact (OrderedMap.contains_insert ..).2 (.inr (hb.live k hk))
    · have hcount := hb.count
      have hmoved := OrderedMap.countP_insert
        (fun k : Learner => decide (k.action.target? = some t)) (v := learner)
        (h.find?_of_le_nextLearner (Nat.le_of_eq hl))
      change (team.references : Int) = ((p.learners.insert l learner).values.countP
        fun k => decide (k.action.target? = some t)) + _
      rw [edgesTo] at hcount
      simp only [decide_eq_true_eq] at hmoved
      have hlearner := cast_indicator (learner.action.target? = some t)
      omega
  learner k learner' hk := by
    have hfind : (p.learners.insert l learner).find? k = some learner' := hk
    rw [OrderedMap.find?_insert] at hfind
    by_cases hkl : k = l
    · subst hkl
      obtain rfl : learner = learner' := by simpa using hfind
      refine ⟨hid, Nat.lt_succ_self _, hlive, ?_⟩
      change (learner.references : Int) = p.listings k + 0
      rw [hzero, h.listings_eq_zero (h.find?_of_le_nextLearner (Nat.le_of_eq hl))]
      rfl
    · have hb := h.learner k learner' (by simpa [hkl] using hfind)
      have hlt : k.index < l.index + 1 := Nat.lt_succ_of_lt (hl ▸ hb.id_lt)
      exact ⟨hb.id_eq, hlt, hb.live, hb.count⟩

theorem insertTeam (h : Balanced p (fun _ => 0) dl) (t : TeamId)
    (ht : p.counters.nextTeam = t.index) :
    Balanced
      { p with
        counters := { p.counters with nextTeam := t.index + 1 }
        teams := p.teams.insert t (.new t) } (fun _ => 0) dl where
  team u team hu := by
    have hfind : (p.teams.insert t (.new t)).find? u = some team := hu
    rw [OrderedMap.find?_insert] at hfind
    by_cases hut : u = t
    · subst hut
      obtain rfl : Team.new u = team := by simpa using hfind
      refine ⟨rfl, Nat.lt_succ_self _, .nil, by simp [Team.new], ?_⟩
      change (0 : Int) = p.edgesTo u + 0
      rw [h.edgesTo_eq_zero (h.find?_of_le_nextTeam (Nat.le_of_eq ht))]
      rfl
    · have hb := h.team u team (by simpa [hut] using hfind)
      have hlt : u.index < t.index + 1 := Nat.lt_succ_of_lt (ht ▸ hb.id_lt)
      exact ⟨hb.id_eq, hlt, hb.nodup, hb.live, hb.count⟩
  learner l learner hl := by
    have hb := h.learner l learner hl
    refine ⟨hb.id_eq, hb.id_lt, fun u hu => ?_, ?_⟩
    · exact (OrderedMap.contains_insert ..).2 (.inr (hb.live u hu))
    · have hmoved := OrderedMap.countP_insert (fun u : Team => u.members.contains l)
        (v := Team.new t) (h.find?_of_le_nextTeam (Nat.le_of_eq ht))
      have hlistings : ((p.teams.insert t (.new t)).values.countP fun u => u.members.contains l) =
          p.listings l := hmoved.trans (by simp [listings, Team.new])
      have hcount := hb.count
      rw [← hlistings] at hcount
      exact hcount

theorem eraseTeam (h : Balanced p dt dl) {t : TeamId} {team : Team}
    (ht : p.teams.find? t = some team) (hzero : p.edgesTo t = 0) :
    Balanced { p with teams := p.teams.erase t } dt
      fun l => dl l + indicator (l ∈ team.members) where
  team u team' hu := by
    have hfind : (p.teams.erase t).find? u = some team' := hu
    rw [OrderedMap.find?_erase] at hfind
    by_cases hut : u = t
    · simp [hut] at hfind
    · have hb := h.team u team' (by simpa [hut] using hfind)
      exact ⟨hb.id_eq, hb.id_lt, hb.nodup, hb.live, hb.count⟩
  learner l learner hl := by
    have hb := h.learner l learner hl
    refine ⟨hb.id_eq, hb.id_lt, fun u hu => ?_, ?_⟩
    · refine (OrderedMap.contains_erase ..).2 ⟨?_, hb.live u hu⟩
      rintro rfl
      have hnone := List.countP_eq_zero.1 hzero learner (OrderedMap.mem_values_iff.2 ⟨l, hl⟩)
      exact hnone (by simpa using hu)
    · have hcount := hb.count
      have hmoved := OrderedMap.countP_erase (fun u : Team => u.members.contains l) ht
      change (learner.references : Int) =
        ((p.teams.erase t).values.countP fun u => u.members.contains l) + _
      rw [listings] at hcount
      simp only [List.contains_iff_mem] at hmoved
      have hteam := cast_indicator (l ∈ team.members)
      omega

theorem eraseLearner (h : Balanced p dt dl) {l : LearnerId} {learner : Learner}
    (hl : p.learners.find? l = some learner) (hzero : p.listings l = 0) :
    Balanced { p with learners := p.learners.erase l }
      (fun t => dt t + indicator (learner.action.target? = some t)) dl where
  team t team ht := by
    have hb := h.team t team ht
    refine ⟨hb.id_eq, hb.id_lt, hb.nodup, fun k hk => ?_, ?_⟩
    · refine (OrderedMap.contains_erase ..).2 ⟨?_, hb.live k hk⟩
      rintro rfl
      have hnone := List.countP_eq_zero.1 hzero team (OrderedMap.mem_values_iff.2 ⟨t, ht⟩)
      exact hnone (by simpa using hk)
    · have hcount := hb.count
      have hmoved := OrderedMap.countP_erase
        (fun k : Learner => decide (k.action.target? = some t)) hl
      change (team.references : Int) =
        ((p.learners.erase l).values.countP fun k => decide (k.action.target? = some t)) + _
      rw [edgesTo] at hcount
      simp only [decide_eq_true_eq] at hmoved
      have hlearner := cast_indicator (learner.action.target? = some t)
      omega
  learner k learner' hk := by
    have hfind : (p.learners.erase l).find? k = some learner' := hk
    rw [OrderedMap.find?_erase] at hfind
    by_cases hkl : k = l
    · simp [hkl] at hfind
    · have hb := h.learner k learner' (by simpa [hkl] using hfind)
      exact ⟨hb.id_eq, hb.id_lt, hb.live, hb.count⟩

/-- Releasing distinct learners one after the other takes one off the surplus of each. -/
theorem releaseAll : ∀ {ls : List LearnerId} {p : Population}, ls.Nodup →
    Balanced p dt (fun l => indicator (l ∈ ls)) →
    Balanced (ls.foldl Population.releaseLearner p) dt fun _ => 0
  | [], _, _, h => by simpa [indicator] using h
  | l :: ls, p, hnodup, h => by
    obtain ⟨hl, hls⟩ := List.nodup_cons.1 hnodup
    have hpos : ∀ learner, p.learners.find? l = some learner → 0 < learner.references := by
      intro learner hlearner
      have hcount := (h.learner l learner hlearner).count
      simp only [indicator, List.mem_cons, true_or, if_true] at hcount
      omega
    rw [List.foldl_cons]
    refine releaseAll hls ((h.releaseLearner hpos).congr (fun _ _ _ => rfl) fun k _ _ => ?_)
    simp only [indicator]
    by_cases hk : k = l
    · simp [hk, hl]
    · simp [hk]

end Balanced

end Population

end TangledPrograms
