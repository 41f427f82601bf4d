import TangledPrograms.Proofs.Population.Provenance
import TangledPrograms.Proofs.Population.Reporting

/-!
# Redirecting a learner

The mutation of an action draws one proposal and takes it unless it agrees with the action that is
there. A team is proposed if the coin shows false and there is one to propose, else an atomic action
is proposed, if the pool offers one. On a population that the recount accepts the edge is then moved
without fail.
-/

namespace TangledPrograms

open Draw

namespace ActionMutation

/-- A team that an action may be changed to. -/
structure Eligible (p : Population) (current : Action) (parent : Option TeamId) (t : TeamId) :
    Prop where
  live : p.teams.contains t = true
  ne_target : current.target? ≠ some t
  ne_parent : parent ≠ some t

/-- A team that the action may be changed to, or an atomic action, which comes from the pool and
disagrees with the present one, unless the pool is all vectors. -/
inductive Proposed (p : Population) (current : Action) (parent : Option TeamId)
    (pool : List AtomicAction) : Option Action → Prop where
  | team {t : TeamId} (h : Eligible p current parent t) :
    Proposed p current parent pool (some (.team t))
  | atomic {o : Option AtomicAction} (h : ¬ AllVectors pool → ∀ a ∈ o,
      a ∈ pool ∧ (Action.atomic a).agrees current = false) :
    Proposed p current parent pool (o.map .atomic)

/-- The proposal, unless there is none or it agrees with the action that is there. -/
def settle (current : Action) (proposal : Option Action) : Action :=
  (proposal.filter fun a => !a.agrees current).getD current

variable {p : Population} {m : MutationSettings} {pool : List AtomicAction} {current : Action}
  {parent : Option TeamId} {proposal : Option Action}

theorem mem_candidates_iff {t : TeamId} :
    t ∈ candidates p current parent ↔ Eligible p current parent t := by
  have hlive : t ∈ p.teams.keys ↔ p.teams.contains t = true := by
    rw [OrderedMap.contains_iff]
    simp [OrderedMap.keys, OrderedMap.find?_eq_some_iff]
  rw [candidates, List.mem_filter, hlive]
  constructor
  · rintro ⟨hlive, hne⟩
    rw [Bool.and_eq_true, decide_eq_true_eq, decide_eq_true_eq] at hne
    exact ⟨hlive, hne.1.symm, hne.2.symm⟩
  · rintro ⟨hlive, htarget, hparent⟩
    refine ⟨hlive, ?_⟩
    rw [Bool.and_eq_true, decide_eq_true_eq, decide_eq_true_eq]
    exact ⟨htarget.symm, hparent.symm⟩

theorem candidates_eq_nil_iff :
    candidates p current parent = [] ↔ ¬ ∃ t, Eligible p current parent t := by
  simp only [List.eq_nil_iff_forall_not_mem, mem_candidates_iff, not_exists]

theorem Eligible.disagrees {t : TeamId} (h : Eligible p current parent t) :
    (Action.team t).agrees current = false := by
  cases current with
  | atomic a => rfl
  | team u =>
    have hne : t ≠ u := fun htu => h.ne_target (htu ▸ rfl)
    exact decide_eq_false hne

/-- A coin that shows true, or no team to propose, leads to an atomic proposal, and else a team is
proposed. -/
theorem propose_cases {s s' : Source}
    (h : propose p current parent pool s = .ok (proposal, s')) :
    ∃ fires s₁, coin p.settings.mutation.actionAtomic.toFloat s = .ok (fires, s₁) ∧
      ((fires = true ∨ ¬ ∃ t, Eligible p current parent t) →
        ∃ o, proposeAtomic p.settings.mutation pool current s₁ = .ok (o, s') ∧
          proposal = o.map .atomic) ∧
      (fires = false → (∃ t, Eligible p current parent t) →
        ∃ t, Eligible p current parent t ∧ proposal = some (.team t)) := by
  obtain ⟨fires, s₁, hcoin, h⟩ := exists_of_bind h
  refine ⟨fires, s₁, hcoin, fun hatomic => ?_, fun hfires hteam => ?_⟩
  · have hbranch : (fires || (candidates p current parent).isEmpty) = true := by
      rw [Bool.or_eq_true, List.isEmpty_iff, candidates_eq_nil_iff]
      exact hatomic
    rw [if_pos hbranch] at h
    obtain ⟨o, s₂, ho, hpure⟩ := exists_of_bind h
    cases hpure
    exact ⟨o, ho, rfl⟩
  · have hne : candidates p current parent ≠ [] := mt candidates_eq_nil_iff.1 (not_not.2 hteam)
    have hbranch : ¬ (fires || (candidates p current parent).isEmpty) = true := by
      rw [hfires, Bool.false_or, List.isEmpty_iff]
      exact hne
    rw [if_neg hbranch] at h
    obtain ⟨o, s₂, ho, hpure⟩ := exists_of_bind h
    obtain ⟨t, ht, rfl⟩ := (yields_choose hne).ensures _ _ _ ho
    cases hpure
    exact ⟨t, mem_candidates_iff.1 ht, rfl⟩

/-- A pool that is not all vectors offers one of its entries that disagree with the action, as long
as there is one. -/
theorem proposeAtomic_spec (hpool : ¬ AllVectors pool) :
    (proposeAtomic m pool current).Ensures fun o =>
      (∀ a ∈ o, a ∈ pool ∧ (Action.atomic a).agrees current = false) ∧
        (o = none → ∀ a ∈ pool, (Action.atomic a).agrees current = true) := by
  rw [proposeAtomic, if_neg (mt proposesVector_iff.1 hpool)]
  have hothers {a : AtomicAction} : a ∈ pool.filter (fun a => !(Action.atomic a).agrees current) ↔
      a ∈ pool ∧ (Action.atomic a).agrees current = false := by
    rw [List.mem_filter, Bool.not_eq_true']
  by_cases hnil : pool.filter (fun a => !(Action.atomic a).agrees current) = []
  · rw [hnil]
    refine .pure ⟨fun a ha => ?_, fun _ a ha => ?_⟩
    · cases ha
    · by_contra hagrees
      have hmem := hothers.2 ⟨ha, Bool.eq_false_iff.2 hagrees⟩
      rw [hnil] at hmem
      cases hmem
  · refine (yields_choose hnil).ensures.mono ?_
    rintro _ ⟨a, ha, rfl⟩
    constructor
    · rintro _ ⟨⟩
      exact hothers.1 ha
    · intro hnone
      cases hnone

theorem proposed_of_propose {s s' : Source}
    (h : propose p current parent pool s = .ok (proposal, s')) :
    Proposed p current parent pool proposal := by
  obtain ⟨fires, s₁, -, hatomic, hteam⟩ := propose_cases h
  by_cases hregime : fires = true ∨ ¬ ∃ t, Eligible p current parent t
  · obtain ⟨o, ho, rfl⟩ := hatomic hregime
    exact .atomic fun hpool => (proposeAtomic_spec hpool _ _ _ ho).1
  · obtain ⟨hfires, heligible⟩ := not_or.1 hregime
    obtain ⟨t, ht, rfl⟩ := hteam (Bool.eq_false_iff.2 hfires) (not_not.1 heligible)
    exact .team ht

theorem Proposed.targets (h : Proposed p current parent pool proposal) :
    ∀ a ∈ proposal, p.Targets a := by
  rintro a ha t ht
  cases h with
  | team h =>
    cases ha
    cases ht
    exact h.live
  | atomic h =>
    obtain ⟨b, -, rfl⟩ := Option.map_eq_some_iff.1 ha
    cases ht

/-- With an action that agrees with itself, the proposals that disagree with it are those that
change it, and they are taken. -/
theorem settle_spec (hnumbers : current.NoNaN) (proposal : Option Action) :
    let changed := proposal.any fun a => !a.agrees current
    (changed = true ↔ settle current proposal ≠ current) ∧
      (changed = true ↔ (settle current proposal).agrees current = false) ∧
      (changed = true → proposal = some (settle current proposal)) := by
  have hself := hnumbers.agrees_self
  cases proposal with
  | none => simp [settle, hself]
  | some a =>
    cases hagrees : a.agrees current with
    | true => simp [settle, Option.filter, hagrees, hself]
    | false =>
      have hne : a ≠ current := by
        rintro rfl
        rw [hself] at hagrees
        cases hagrees
      simp [settle, Option.filter, hagrees, hne]

end ActionMutation

namespace Population

open ActionMutation

variable {p q : Population} {l : LearnerId} {learner : Learner} {parent : Option TeamId}
  {pool : List AtomicAction}

/-- Teams that neither action leads to keep their counts. -/
theorem Replaced.find?_team {before after : Learner} (h : Replaced p l before after q) {t : TeamId}
    (hbefore : before.action.target? ≠ some t) (hafter : after.action.target? ≠ some t) :
    q.teams.find? t = p.teams.find? t := by
  cases ht : p.teams.find? t with
  | none =>
    have hlive := h.live t
    rw [OrderedMap.contains, OrderedMap.contains, ht] at hlive
    exact Option.isNone_iff_eq_none.1 (by simpa using hlive)
  | some team =>
    obtain ⟨references, hteam, hcount⟩ := h.team t team ht
    rw [indicator, indicator, if_neg hbefore, if_neg hafter] at hcount
    have hsame : references = team.references := by omega
    rw [hteam, hsame]

/-- `q` is `p` with `action` for the learner's action, which is a change or none. A new team may be
changed to, and a new atomic action is another entry of the pool, unless all of it are vectors. -/
structure Redirection (p : Population) (l : LearnerId) (learner : Learner) (parent : Option TeamId)
    (pool : List AtomicAction) (changed : Bool) (action : Action) (q : Population) : Prop where
  replaced : Replaced p l learner { learner with action } q
  changed_iff : changed = true ↔ action ≠ learner.action
  disagrees_iff : changed = true ↔ action.agrees learner.action = false
  counts : ∀ t, learner.action.target? ≠ some t → action.target? ≠ some t →
    q.teams.find? t = p.teams.find? t
  team : changed = true → ∀ t, action = .team t → Eligible p learner.action parent t
  atomic : changed = true → ¬ AllVectors pool → ∀ a, action = .atomic a →
    a ∈ pool ∧ .atomic a ≠ learner.action

theorem redirection_of_proposed {proposal : Option Action} (hnumbers : learner.action.NoNaN)
    (h : Proposed p learner.action parent pool proposal)
    (hq : Replaced p l learner { learner with action := settle learner.action proposal } q) :
    Redirection p l learner parent pool (proposal.any fun a => !a.agrees learner.action)
      (settle learner.action proposal) q := by
  obtain ⟨hchanged, hdisagrees, htaken⟩ := settle_spec hnumbers proposal
  refine ⟨hq, hchanged, hdisagrees, fun t => hq.find?_team, fun hch t ht => ?_,
    fun hch hpool a ha => ?_⟩
  · rw [ht] at htaken
    have hteam := htaken hch
    cases h with
    | team h =>
      cases hteam
      exact h
    | atomic h =>
      obtain ⟨b, -, hb⟩ := Option.map_eq_some_iff.1 hteam
      cases hb
  · rw [ha] at htaken
    have hatomic := htaken hch
    cases h with
    | team h => cases hatomic
    | atomic h =>
      obtain ⟨b, hb, heq⟩ := Option.map_eq_some_iff.1 hatomic
      cases heq
      exact ⟨(h hpool a hb).1, ha ▸ hchanged.1 hch⟩

/-- A proposal whose target is live is settled: no edit of the edge is refused. -/
theorem Filed.mutateAction_settles (h : Filed p) (hl : p.learners.find? l = some learner)
    {proposal : Option Action} {s s' : Source} (hlive : ∀ a ∈ proposal, p.Targets a)
    (hpropose : propose p learner.action parent pool s = .ok (proposal, s')) :
    ∃ q, p.mutateAction l parent pool s =
        .ok (.done (proposal.any fun a => !a.agrees learner.action) q, s') ∧
      Replaced p l learner { learner with action := settle learner.action proposal } q := by
  simp only [Population.mutateAction, hl, bind_apply, hpropose, Except.bind]
  cases proposal with
  | none => exact ⟨p, rfl, .refl hl⟩
  | some action =>
    have hkept : Replaced p l learner learner p := .refl hl
    cases hagrees : action.agrees learner.action with
    | true =>
      have hsettle : settle learner.action (some action) = learner.action := by
        simp [settle, Option.filter, hagrees]
      rw [hsettle]
      refine ⟨p, ?_, hkept⟩
      simp only [hagrees, if_true, Option.any_some, Bool.not_true]
      rfl
    | false =>
      have hsettle : settle learner.action (some action) = action := by
        simp [settle, Option.filter, hagrees]
      have hrewire := p.rewire_of_counts hl (hlive action rfl) (h.counts hl)
      rw [hsettle]
      refine ⟨_, ?_, hkept.rewire rfl hrewire⟩
      simp only [hagrees, Bool.false_eq_true, if_false, hrewire, Option.any_some, Bool.not_false]
      rfl

/-- On a population that the recount accepts, the mutation of a live learner's action is never
refused. It tells of a change exactly if the learner's action is another one afterwards, and only the
counts of the old and the new target move. When the coin shows false and there is a team to change to,
the action becomes such a team. Else the proposal is an atomic one: from a pool of vectors there always
is one, a vector of the pool or the moved one of the learner, and any other pool changes the action
whenever it has an entry that disagrees. -/
theorem mutateAction_redirects {e : Edited Bool} {s s' : Source} (hkeyed : p.Keyed)
    (hp : p.checkReferences = .ok ()) (hl : p.learners.find? l = some learner)
    (hnumbers : learner.action.NoNaN) (h : p.mutateAction l parent pool s = .ok (e, s')) :
    ∃ changed action q, e = .done changed q ∧
      Redirection p l learner parent pool changed action q ∧
      ∃ fires s₁, coin p.settings.mutation.actionAtomic.toFloat s = .ok (fires, s₁) ∧
        (fires = false → (∃ t, Eligible p learner.action parent t) →
          changed = true ∧ ∃ t, action = .team t) ∧
        ((fires = true ∨ ¬ ∃ t, Eligible p learner.action parent t) →
          (∃ o, proposeAtomic p.settings.mutation pool learner.action s₁ = .ok (o, s') ∧
            action = settle learner.action (o.map .atomic) ∧
            (AllVectors pool → ∃ v, o = some (.vector v) ∧
              VectorProposed p.settings.mutation pool learner.action s₁ v)) ∧
          (¬ AllVectors pool →
            (changed = true ↔ ∃ a ∈ pool, (Action.atomic a).agrees learner.action = false))) := by
  have hrun := h
  rw [mutateAction, hl] at hrun
  obtain ⟨proposal, s₂, hpropose, -⟩ := exists_of_bind hrun
  have hproposed := proposed_of_propose hpropose
  obtain ⟨q, hdone, hreplaced⟩ :=
    (hkeyed.filed hp).mutateAction_settles hl hproposed.targets hpropose
  rw [h] at hdone
  cases hdone
  obtain ⟨fires, s₁, hcoin, hatomic, hteam⟩ := propose_cases hpropose
  refine ⟨_, _, q, rfl, redirection_of_proposed hnumbers hproposed hreplaced, fires, s₁, hcoin,
    fun hfires heligible => ?_, fun hregime => ?_⟩
  · obtain ⟨t, ht, rfl⟩ := hteam hfires heligible
    have hchanged : (some (Action.team t)).any (fun a => !a.agrees learner.action) = true := by
      rw [Option.any_some, ht.disagrees]
      rfl
    have htaken := (settle_spec hnumbers _).2.2 hchanged
    exact ⟨hchanged, t, (Option.some.inj htaken).symm⟩
  · obtain ⟨o, ho, rfl⟩ := hatomic hregime
    have hvectors : AllVectors pool → ∃ v, o = some (.vector v) ∧
        VectorProposed p.settings.mutation pool learner.action s₁ v := fun hpool => by
      rw [proposeAtomic_of_vectors hpool.1 hpool.2] at ho
      exact vectorProposed_of_proposeVector hpool ho
    refine ⟨⟨o, ho, rfl, hvectors⟩, fun hpool => ?_⟩
    obtain ⟨hoffered, hnothing⟩ := proposeAtomic_spec hpool _ _ _ ho
    cases o with
    | none =>
      constructor
      · intro hchanged
        cases hchanged
      · rintro ⟨a, ha, hdisagrees⟩
        rw [hnothing rfl a ha] at hdisagrees
        cases hdisagrees
    | some b =>
      obtain ⟨hb, hdisagrees⟩ := hoffered b rfl
      refine ⟨fun _ => ⟨b, hb, hdisagrees⟩, fun _ => ?_⟩
      rw [Option.map_some, Option.any_some, hdisagrees]
      rfl

theorem keyed_crossroads (m : MutationSettings) : (crossroads m).Keyed :=
  have h : (crossroads {}).Keyed := by decide
  ⟨h.team, h.learner⟩

theorem exists_learner_crossroads (m : MutationSettings) :
    ∃ learner, (crossroads m).learners.find? ⟨0⟩ = some learner ∧ learner.action = .team ⟨1⟩ ∧
      learner.action.NoNaN := ⟨_, rfl, rfl, trivial⟩

/-- The action is always changed for an atomic one; a vector of the pool is taken as it is. -/
def stopping : Population :=
  crossroads { program := 0.0, action := 1.0, actionAtomic := 1.0, swapVector := 1.0, changeVector := 0.0 }

/-- From the second of three teams a learner of the first can be redirected to the third only. Where an
atomic action is certain, it gets a vector of a pool of vectors, and one of the two entries of a mixed
pool. -/
theorem mutateAction_redirects_crossroads :
    (∃ learner s', turning.Keyed ∧ turning.checkReferences = .ok () ∧
      turning.learners.find? ⟨0⟩ = some learner ∧ learner.action.NoNaN ∧
      ∃ q t, turning.mutateAction ⟨0⟩ (some ⟨0⟩) [] (.ofWords [0, 0]) = .ok (.done true q, s') ∧
        Eligible turning learner.action (some ⟨0⟩) t ∧
        Redirection turning ⟨0⟩ learner (some ⟨0⟩) [] true (.team t) q) ∧
    (∃ learner s', stopping.Keyed ∧ stopping.checkReferences = .ok () ∧
      stopping.learners.find? ⟨0⟩ = some learner ∧ learner.action.NoNaN ∧
      (let pool := [.vector [0.25], .vector [0.75]]
        ∃ q s₁ v, stopping.mutateAction ⟨0⟩ none pool (.ofWords [0, 0, 0, 0]) = .ok (.done true q, s') ∧
          VectorProposed stopping.settings.mutation pool learner.action s₁ v ∧
          Redirection stopping ⟨0⟩ learner none pool true (.atomic (.vector v)) q) ∧
      (let pool := [.label 4, .vector [0.75]]
        ∃ q s' a, stopping.mutateAction ⟨0⟩ none pool (.ofWords [0, 0]) = .ok (.done true q, s') ∧
          a ∈ pool ∧ Redirection stopping ⟨0⟩ learner none pool true (.atomic a) q)) := by
  constructor
  · have hkeyed : turning.Keyed := keyed_crossroads _
    have hp : turning.checkReferences = .ok () := rfl
    obtain ⟨learner, hl, haction, hnumbers⟩ : ∃ learner, turning.learners.find? ⟨0⟩ = some learner ∧
      learner.action = .team ⟨1⟩ ∧ learner.action.NoNaN := exists_learner_crossroads _
    have heligible : Eligible turning learner.action (some ⟨0⟩) ⟨2⟩ := by
      rw [haction]
      exact ⟨by decide, by decide, by decide⟩
    obtain ⟨q, s', h⟩ : ∃ q s', turning.mutateAction ⟨0⟩ (some ⟨0⟩) [] (.ofWords [0, 0]) =
        .ok (.done true q, s') := ⟨_, _, rfl⟩
    obtain ⟨changed, action, r, hdone, hredirection, fires, s₁, hcoin, hteam, -⟩ :=
      mutateAction_redirects hkeyed hp hl hnumbers h
    cases hdone
    have hfires : fires = false := by
      cases hcoin
      rfl
    obtain ⟨-, t, rfl⟩ := hteam hfires ⟨⟨2⟩, heligible⟩
    exact ⟨learner, s', hkeyed, hp, hl, hnumbers, q, t, h, hredirection.team rfl t rfl, hredirection⟩
  · have hkeyed : stopping.Keyed := keyed_crossroads _
    have hp : stopping.checkReferences = .ok () := rfl
    obtain ⟨learner, hl, haction, hnumbers⟩ : ∃ learner, stopping.learners.find? ⟨0⟩ = some learner ∧
      learner.action = .team ⟨1⟩ ∧ learner.action.NoNaN := exists_learner_crossroads _
    have hsettle : ∀ a : AtomicAction, settle learner.action (some (.atomic a)) = .atomic a := by
      intro a
      rw [haction]
      rfl
    -- The call ends with a change, and the coin that comes first has shown an atomic action.
    obtain ⟨q, s', h⟩ : ∃ q s', stopping.mutateAction ⟨0⟩ none [.vector [0.25], .vector [0.75]]
        (.ofWords [0, 0, 0, 0]) = .ok (.done true q, s') := ⟨_, _, rfl⟩
    obtain ⟨_, _, _, hdone, hredirection, fires, s₁, hcoin, -, hatomic⟩ :=
      mutateAction_redirects hkeyed hp hl hnumbers h
    cases hdone
    obtain ⟨⟨_, -, rfl, hvectors⟩, -⟩ := hatomic (.inl (by cases hcoin; rfl))
    obtain ⟨v, rfl, hv⟩ := hvectors ⟨by simp, by simp [AtomicAction.isVector]⟩
    rw [Option.map_some, hsettle] at hredirection
    obtain ⟨q', s'', h'⟩ : ∃ q s', stopping.mutateAction ⟨0⟩ none [.label 4, .vector [0.75]]
        (.ofWords [0, 0]) = .ok (.done true q, s') := ⟨_, _, rfl⟩
    obtain ⟨_, _, _, hdone', hredirection', fires', _, hcoin', -, hatomic'⟩ :=
      mutateAction_redirects hkeyed hp hl hnumbers h'
    cases hdone'
    obtain ⟨⟨o, -, rfl, -⟩, -⟩ := hatomic' (.inl (by cases hcoin'; rfl))
    obtain ⟨a, rfl⟩ : ∃ a, o = some a := by
      cases o with
      | none => exact absurd rfl (hredirection'.changed_iff.1 rfl)
      | some a => exact ⟨a, rfl⟩
    rw [Option.map_some, hsettle] at hredirection'
    have hmem := (hredirection'.atomic rfl (by simp [AtomicAction.isVector]) a rfl).1
    exact ⟨learner, s', hkeyed, hp, hl, hnumbers, ⟨q, s₁, v, h, hv, hredirection⟩, q', s'', a, h', hmem,
      hredirection'⟩

end Population

end TangledPrograms
