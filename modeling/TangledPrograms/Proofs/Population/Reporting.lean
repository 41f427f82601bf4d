import TangledPrograms.Proofs.Addressing
import TangledPrograms.Proofs.Population.Refusal
import TangledPrograms.Proofs.Program.Mutation

/-!
# What the report of a mutation tells

The mutation of a learner changes the learner's instructions, mode, addressing, group and action, and
with the action the counts of two teams; all else stays. The report tells which of these changed. Every
step of a round changes one of them, and it sets a flag that is still clear: a round that sets one is
the last. So a report without a flag comes with the population as it was.
-/

namespace TangledPrograms

/-- All but what mutation may change. -/
structure Learner.Continues (before after : Learner) : Prop where
  id : after.id = before.id
  programId : after.program.id = before.program.id
  registers : after.registers = before.registers
  references : after.references = before.references
  memory : after.memory = before.memory

/-- The report tells which parts of the learner changed; of the action it tells whether one has come in
its place that does not agree with it. -/
structure MutationReport.Tells (report : MutationReport) (before after : Learner) : Prop where
  program : report.program = none → after.program = before.program
  outcome : ∀ outcome, report.program = some outcome → outcome.changed = true
  mode : report.modeToggled = true ↔ after.mode ≠ before.mode
  keptAction : report.actionChanged = false → after.action = before.action
  newAction : report.actionChanged = true → after.action.agrees before.action = false
  group : report.groupChanged = true ↔ after.group ≠ before.group
  addressing : report.addressingMoved = false → after.addressing = before.addressing

theorem Learner.Continues.trans {before learner after : Learner} (h : before.Continues learner)
    (h' : learner.Continues after) : before.Continues after where
  id := h'.id.trans h.id
  programId := h'.programId.trans h.programId
  registers := h'.registers.trans h.registers
  references := h'.references.trans h.references
  memory := h'.memory.trans h.memory

/-- A change of a learner other than of its action, and the report that tells of it, once it has told
what had been changed from `before`. -/
structure MutationReport.TellsOf (report report' : MutationReport) (before learner after : Learner) :
    Prop where
  continues : learner.Continues after
  action : after.action = learner.action
  rounds : report'.rounds = report.rounds
  tells : report.Tells before learner → report'.Tells before after

/-- No coordinate of the action is NaN. -/
def Action.NoNaN : Action → Prop
  | .atomic (.vector coordinates) => ∀ x ∈ coordinates, x.toFloat.isNaN = false
  | _ => True

theorem agreeNumbers_self {xs : List Binary64} (h : ∀ x ∈ xs, x.toFloat.isNaN = false) :
    agreeNumbers xs xs = true := by
  induction xs with
  | nil => rfl
  | cons x xs ih =>
    rw [List.forall_mem_cons] at h
    rw [agreeNumbers, Number.beq_self h.1, ih h.2]
    rfl

theorem Action.NoNaN.agrees_self {a : Action} (h : a.NoNaN) : a.agrees a = true := by
  rcases a with (_ | xs) | t
  · exact decide_eq_true rfl
  · exact agreeNumbers_self h
  · exact decide_eq_true rfl

namespace MutationReport

variable {report : MutationReport} {before after : Learner}

theorem Tells.action_iff (h : report.Tells before after) (hnumbers : before.action.NoNaN) :
    report.actionChanged = true ↔ after.action ≠ before.action := by
  constructor
  · intro hchanged heq
    have hagrees := h.newAction hchanged
    rw [heq, hnumbers.agrees_self] at hagrees
    cases hagrees
  · intro hne
    by_contra hkept
    exact hne (h.keptAction (Bool.eq_false_iff.2 hkept))

theorem changed_eq_false_iff : report.changed = false ↔
    (∀ outcome, report.program = some outcome → outcome.changed = false) ∧
      report.modeToggled = false ∧ report.actionChanged = false ∧ report.groupChanged = false ∧
      report.addressingMoved = false := by
  rw [changed]
  cases report.program <;> simp [Bool.or_eq_false_iff, and_assoc]

theorem Tells.mode_eq (h : report.Tells before after) (hclear : report.modeToggled = false) :
    after.mode = before.mode :=
  of_not_not (mt h.mode.2 (Bool.eq_false_iff.1 hclear))

theorem Tells.group_eq (h : report.Tells before after) (hclear : report.groupChanged = false) :
    after.group = before.group :=
  of_not_not (mt h.group.2 (Bool.eq_false_iff.1 hclear))

theorem Tells.program_eq_none (h : report.Tells before after) (hchanged : report.changed = false) :
    report.program = none := by
  obtain ⟨hprogram, -⟩ := changed_eq_false_iff.1 hchanged
  cases houtcome : report.program with
  | none => rfl
  | some outcome =>
    have hfalse := hprogram outcome houtcome
    rw [h.outcome outcome houtcome] at hfalse
    cases hfalse

/-- A report without a change counts rounds and nothing else. -/
theorem Tells.eq_rounds (h : report.Tells before after) (hchanged : report.changed = false) :
    report = { rounds := report.rounds } := by
  obtain ⟨-, hmode, haction, hgroup, haddressing⟩ := changed_eq_false_iff.1 hchanged
  have hprogram := h.program_eq_none hchanged
  cases report
  simp only at hprogram hmode haction hgroup haddressing
  subst hprogram hmode haction hgroup haddressing
  rfl

/-- Without a change the learner is the same. -/
theorem Tells.same (h : report.Tells before after) (hcontinues : before.Continues after)
    (hchanged : report.changed = false) : after = before := by
  obtain ⟨-, hmode, haction, hgroup, haddressing⟩ := changed_eq_false_iff.1 hchanged
  have hprogram := h.program (h.program_eq_none hchanged)
  calc after = ⟨after.id, after.program, after.mode, after.addressing, after.group, after.action,
        after.references, after.registers, after.memory⟩ := rfl
    _ = ⟨before.id, before.program, before.mode, before.addressing, before.group, before.action,
        before.references, before.registers, before.memory⟩ := by
      rw [hcontinues.id, hprogram, h.mode_eq hmode, h.addressing haddressing, h.group_eq hgroup,
        h.keptAction haction, hcontinues.references, hcontinues.registers, hcontinues.memory]
    _ = before := rfl

end MutationReport

namespace Population

/-- `q` is `p` with another learner in the place of `before`, and with the edge of its action moved. -/
structure Replaced (p : Population) (l : LearnerId) (before after : Learner) (q : Population) :
    Prop where
  settings : q.settings = p.settings
  ranges : q.ranges = p.ranges
  counters : q.counters = p.counters
  learner : q.learners.find? l = some after
  others : ∀ k, k ≠ l → q.learners.find? k = p.learners.find? k
  live : ∀ t, q.teams.contains t = p.teams.contains t
  team : ∀ t team, p.teams.find? t = some team → ∃ references : Nat,
    q.teams.find? t = some { team with references } ∧ (references : Int) = team.references +
      indicator (after.action.target? = some t) - indicator (before.action.target? = some t)

variable {p q : Population} {l : LearnerId} {before after : Learner}

theorem Replaced.refl (hl : p.learners.find? l = some before) : Replaced p l before before p where
  settings := rfl
  ranges := rfl
  counters := rfl
  learner := hl
  others _ _ := rfl
  live _ := rfl
  team t team ht := ⟨team.references, ht, by omega⟩

/-- With the same learner in its place nothing is replaced. -/
theorem Replaced.eq (h : Replaced p l before before q) (hl : p.learners.find? l = some before) :
    q = p := by
  have hlearners : q.learners = p.learners := by
    refine OrderedMap.ext_find? fun k => ?_
    by_cases hk : k = l
    · rw [hk, h.learner, hl]
    · exact h.others k hk
  have hteams : q.teams = p.teams := by
    refine OrderedMap.ext_find? fun t => ?_
    cases ht : p.teams.find? t with
    | none =>
      have hlive := h.live t
      rw [OrderedMap.contains, OrderedMap.contains, ht] at hlive
      exact Option.not_isSome_iff_eq_none.1 (Bool.eq_false_iff.1 hlive)
    | some team =>
      obtain ⟨references, hteam, hcount⟩ := h.team t team ht
      have hsame : references = team.references := by omega
      rw [hteam, hsame]
  calc q = ⟨q.settings, q.ranges, q.counters, q.teams, q.learners⟩ := rfl
    _ = ⟨p.settings, p.ranges, p.counters, p.teams, p.learners⟩ := by
      rw [h.settings, h.ranges, h.counters, hteams, hlearners]
    _ = p := rfl

/-- A change of the learner that keeps its action. -/
theorem Replaced.modifyLearner (h : Replaced p l before after q) {f : Learner → Learner}
    (haction : (f after).action = after.action) :
    Replaced p l before (f after) (q.modifyLearner l f) where
  settings := h.settings
  ranges := h.ranges
  counters := h.counters
  learner := by
    rw [find?_modifyLearner, h.learner, Option.map_some, if_pos rfl]
  others k hk := by
    rw [find?_modifyLearner, h.others k hk]
    simp [hk]
  live := h.live
  team := by
    rw [haction]
    exact h.team

/-- Moving the edge of an action touches the counts of teams and nothing else. -/
theorem retarget_eq (p : Population) (old new : Action) : (p.releaseTarget old).retainTarget new =
    { p with teams := ((p.releaseTarget old).retainTarget new).teams } := by
  simp only [retainTarget, releaseTarget]
  cases new.target? <;> cases old.target? <;> rfl

theorem exists_find?_retarget {t : TeamId} {team : Team} (ht : p.teams.find? t = some team)
    (old new : Action) : ∃ references,
      ((p.releaseTarget old).retainTarget new).teams.find? t = some { team with references } := by
  rw [find?_retainTarget, find?_releaseTarget, ht, Option.map_some, Option.map_some]
  split <;> split <;> exact ⟨_, rfl⟩

/-- The first change of the learner's action. -/
theorem Replaced.rewire (h : Replaced p l before after q) (hkept : after.action = before.action)
    {action : Action} {r : Population} (hdone : q.rewire l action = .done () r) :
    Replaced p l before { after with action } r := by
  obtain ⟨learner, hl, -, hold, rfl⟩ := exists_of_rewire_done hdone
  obtain rfl := Option.some.inj (hl.symm.trans h.learner)
  have hmoved : Moved q (((q.releaseTarget learner.action).retainTarget action).modifyLearner l
      fun learner => { learner with action }) none _ _ := moved_rewire hold
  rw [retarget_eq] at hmoved ⊢
  refine ⟨h.settings, h.ranges, h.counters, ?_, ?_, ?_, ?_⟩
  · rw [find?_modifyLearner, hl, Option.map_some, if_pos rfl]
  · intro k hk
    rw [find?_modifyLearner, h.others k hk]
    simp [hk]
  · intro t
    rw [← h.live t, ← contains_releaseTarget q learner.action t]
    exact contains_retainTarget _ action t
  · intro t team ht
    obtain ⟨references, hteam, hcount⟩ := h.team t team ht
    obtain ⟨references', hteam'⟩ := exists_find?_retarget hteam learner.action action
    refine ⟨references', hteam', ?_⟩
    have hcount' : (references' : Int) = references + indicator (action.target? = some t) -
        indicator (learner.action.target? = some t) :=
      (hmoved.team t _ _ hteam hteam').trans (by simp; omega)
    rw [hkept] at hcount hcount'
    change (references' : Int) = team.references + indicator (action.target? = some t) - _
    omega

/-- So many rounds have been begun, and the report tells what they have done to the learner. -/
def Accounts (p : Population) (l : LearnerId) (before : Learner) (rounds : Nat)
    (report : MutationReport) (q : Population) : Prop :=
  report.rounds = rounds ∧
    ∃ after, Replaced p l before after q ∧ before.Continues after ∧ report.Tells before after

namespace Accounts

variable {rounds : Nat} {report report' : MutationReport}

theorem start (hl : p.learners.find? l = some before) :
    Accounts p l before rounds { rounds } p := by
  refine ⟨rfl, before, .refl hl, ⟨rfl, rfl, rfl, rfl, rfl⟩, ?_⟩
  exact ⟨fun _ => rfl, nofun, ⟨nofun, fun h => absurd rfl h⟩, fun _ => rfl, nofun,
    ⟨nofun, fun h => absurd rfl h⟩, fun _ => rfl⟩

theorem modifyLearner (h : Accounts p l before rounds report q) {learner : Learner}
    (hl : q.learners.find? l = some learner) {f : Learner → Learner}
    (hf : report.TellsOf report' before learner (f learner)) :
    Accounts p l before rounds report' (q.modifyLearner l f) := by
  obtain ⟨hcount, after, hreplaced, hafter, htold⟩ := h
  obtain rfl := Option.some.inj (hl.symm.trans hreplaced.learner)
  exact ⟨hf.rounds.trans hcount, f learner, hreplaced.modifyLearner hf.action,
    hafter.trans hf.continues, hf.tells htold⟩

/-- The first change of the learner's action. -/
theorem rewire (h : Accounts p l before rounds report q) (hclear : report.actionChanged = false)
    {learner : Learner} (hl : q.learners.find? l = some learner) {action : Action} {r : Population}
    (hanew : action.agrees learner.action = false) (hdone : q.rewire l action = .done () r) :
    Accounts p l before rounds { report with actionChanged := true } r := by
  obtain ⟨hcount, after, hreplaced, hafter, htold⟩ := h
  obtain rfl := Option.some.inj (hl.symm.trans hreplaced.learner)
  have hkept := htold.keptAction hclear
  refine ⟨hcount, _, hreplaced.rewire hkept hdone, hafter.trans ⟨rfl, rfl, rfl, rfl, rfl⟩, ?_⟩
  exact ⟨htold.program, htold.outcome, htold.mode, nofun, fun _ => hkept ▸ hanew, htold.group,
    htold.addressing⟩

end Accounts

section round

variable (p l before) (rounds : Nat)

/-- The group has not been changed in this round. -/
def BeforeGroup (report : MutationReport) (q : Population) : Prop :=
  Accounts p l before rounds report q ∧ report.groupChanged = false

/-- Nor has the action. -/
def BeforeAction (report : MutationReport) (q : Population) : Prop :=
  BeforeGroup p l before rounds report q ∧ report.actionChanged = false

/-- Nor has the mode. -/
def BeforeMode (report : MutationReport) (q : Population) : Prop :=
  BeforeAction p l before rounds report q ∧ report.modeToggled = false

variable {p l before rounds}

variable {scope : MutationScope} {corpus : Option UniquenessCorpus}

theorem leads_mutateProgram : RoundStep.Leads (mutateProgram l corpus) (fun _ => True)
    (BeforeMode p l before rounds) (BeforeMode p l before rounds) fun _ _ => True := by
  refine .mutateProgram (fun _ _ _ _ => trivial) fun report q learner h hl => ?_
  have hmutate := (Program.meets_mutate (p := learner.program) (E := fun _ => True) trivial
    (fun _ => trivial) q.settings.mutation q.ranges corpus).and_ensures
      (Program.ensures_mutate_id learner.program corpus)
  refine hmutate.mono fun o ⟨ho, hid⟩ => ?_
  by_cases hchanged : o.1.changed = true
  · rw [if_pos hchanged]
    refine ⟨⟨⟨h.1.1.1.modifyLearner hl ?_, h.1.1.2⟩, h.1.2⟩, h.2⟩
    refine ⟨⟨rfl, hid, rfl, rfl, rfl⟩, rfl, rfl, fun ht => ⟨nofun, fun _ houtcome => ?_, ht.mode,
      ht.keptAction, ht.newAction, ht.group, ht.addressing⟩⟩
    rwa [← Option.some.inj houtcome]
  · rw [if_neg hchanged, ho.same (Bool.eq_false_iff.2 hchanged)]
    have hsame : report.TellsOf report before learner learner :=
      ⟨⟨rfl, rfl, rfl, rfl, rfl⟩, rfl, rfl, id⟩
    exact ⟨⟨⟨h.1.1.1.modifyLearner hl hsame, h.1.1.2⟩, h.1.2⟩, h.2⟩

theorem leads_toggleMode : RoundStep.Leads (toggleMode l) (fun _ => True)
    (BeforeMode p l before rounds) (BeforeAction p l before rounds) fun _ _ => True := by
  refine .toggleMode (fun _ _ _ _ => trivial) fun report q learner ⟨h, hclear⟩ hl => ?_
  refine ⟨⟨h.1.1.modifyLearner hl ⟨⟨rfl, rfl, rfl, rfl, rfl⟩, rfl, rfl, fun ht => ?_⟩, h.1.2⟩, h.2⟩
  have hne : learner.mode.toggle ≠ before.mode := by
    rw [ht.mode_eq hclear]
    cases before.mode <;> decide
  exact ⟨ht.program, ht.outcome, ⟨fun _ => hne, fun _ => rfl⟩, ht.keptAction, ht.newAction, ht.group,
    ht.addressing⟩

theorem leads_changeAction : RoundStep.Leads (changeAction l scope) (fun _ => True)
    (BeforeAction p l before rounds) (BeforeGroup p l before rounds) fun _ _ => True := by
  refine .changeAction (fun _ _ _ _ => trivial) trivial (fun _ _ h => h.1)
    (fun _ _ _ _ _ _ _ _ => trivial) fun report q learner action r h hl hanew _ hdone => ?_
  exact ⟨h.1.1.rewire h.2 hl hanew hdone, h.1.2⟩

/-- A group that differs in 32 bits differs. -/
theorem leads_changeGroup : RoundStep.Leads (changeGroup l) (fun _ => True)
    (BeforeGroup p l before rounds) (Accounts p l before rounds) fun _ _ => True := by
  refine .changeGroup (fun _ _ _ _ => trivial) trivial (fun _ _ h => h.1)
    fun report q learner group ⟨h, hclear⟩ hl _ hne => ?_
  refine h.modifyLearner hl ⟨⟨rfl, rfl, rfl, rfl, rfl⟩, rfl, rfl, fun ht => ?_⟩
  have hother : group.toNat ≠ before.group := by
    rw [← ht.group_eq hclear]
    intro heq
    rw [← heq, UInt32.ofNat_toNat] at hne
    exact hne rfl
  exact ⟨ht.program, ht.outcome, ht.mode, ht.keptAction, ht.newAction, ⟨fun _ => hother, fun _ => rfl⟩,
    ht.addressing⟩

theorem leads_moveAddressing : RoundStep.Leads (moveAddressing l) (fun _ => True)
    (Accounts p l before rounds) (Accounts p l before rounds) fun _ _ => True := by
  refine .moveAddressing (fun _ _ _ _ => trivial) fun report q learner h hl => ?_
  have hperturb := learner.addressing.meets_perturb (E := fun _ => True) trivial trivial
    fun _ => trivial
  refine hperturb.mono fun o ho =>
    h.modifyLearner hl ⟨⟨rfl, rfl, rfl, rfl, rfl⟩, rfl, rfl, fun ht => ?_⟩
  refine ⟨ht.program, ht.outcome, ht.mode, ht.keptAction, ht.newAction, ht.group, fun hclear => ?_⟩
  obtain ⟨hbefore, hnow⟩ := Bool.or_eq_false_iff.1 hclear
  exact (ho.1 hnow).trans (ht.addressing hbefore)

/-- Every step sets a flag that is clear, so each flag tells of the one change that it stands for. -/
theorem round_accounts (s : Settings) :
    RoundStep.Leads (inOrder (roundSteps s l scope corpus)) (fun _ => True)
      (BeforeMode p l before rounds) (Accounts p l before rounds) fun _ _ => True := by
  have hplace : RoundStep.Leads (inOrder (placeSteps s l)) (fun _ => True)
      (BeforeGroup p l before rounds) (Accounts p l before rounds) fun _ _ => True :=
    .inOrder_cons (.onCoin trivial (fun _ _ h => h.1) leads_changeGroup _)
      (.inOrder_cons (.onCoin trivial (fun _ _ h => h) leads_moveAddressing _) .inOrder_nil)
  have haction : RoundStep.Leads
      (inOrder (onCoin s.mutation.action.toFloat (changeAction l scope) :: placeSteps s l))
      (fun _ => True) (BeforeAction p l before rounds) (Accounts p l before rounds) fun _ _ => True :=
    .inOrder_cons (.onCoin trivial (fun _ _ h => h.1) leads_changeAction _) hplace
  refine .inOrder_cons (.onCoin trivial (fun _ _ h => h) leads_mutateProgram _) ?_
  by_cases hvector : s.addressing.vectorMode = true
  · rw [if_pos hvector]
    exact .inOrder_cons (.onCoin trivial (fun _ _ h => h.1) leads_toggleMode _) haction
  · rw [if_neg hvector]
    exact fun report q h => haction report q h.1

end round

/-- A round without a change starts the next one anew; the last one is counted with the others. -/
theorem mutationRounds_accounts {scope : MutationScope} {corpus : Option UniquenessCorpus}
    (hl : p.learners.find? l = some before) (rounds begun : Nat) :
    (mutationRounds l scope corpus rounds { rounds := begun } p).Ensures
      (Edited.Satisfies (fun report q => (∃ n, Accounts p l before n report q) ∧
        (report.changed = false → report.rounds = begun + rounds)) fun _ _ => True) := by
  induction rounds generalizing begun with
  | zero => exact .pure ⟨⟨begun, .start hl⟩, fun _ => rfl⟩
  | succ rounds ih =>
    have hstart : BeforeMode p l before (begun + 1) { rounds := begun + 1 } p :=
      ⟨⟨⟨.start hl, rfl⟩, rfl⟩, rfl⟩
    refine (round_accounts p.settings _ p hstart).ensures.bind fun e he => ?_
    cases e with
    | refused e q => exact .pure trivial
    | done report q =>
      obtain ⟨hrounds, after, hreplaced, hafter, htells⟩ := id he
      dsimp only
      split
      · rename_i hchanged
        refine .pure ⟨⟨_, he⟩, fun hsame => ?_⟩
        rw [hchanged] at hsame
        cases hsame
      · rename_i hchanged
        have hsame := Bool.eq_false_iff.2 hchanged
        obtain rfl := htells.same hafter hsame
        obtain rfl := hreplaced.eq hl
        rw [htells.eq_rounds hsame, hrounds]
        refine (ih (begun + 1)).mono fun e he => ?_
        rwa [Nat.add_right_comm] at he

/-- The mutation of a live learner changes the learner only, in the parts that can be mutated, and the
counts of the old and the new target of its action; its report tells which parts these are. A report
of no change comes with the very same population, after as many rounds as there may be. -/
theorem mutateLearner_tells {scope : MutationScope} {report : MutationReport}
    {source source' : Source} (hl : p.learners.find? l = some before)
    (h : p.mutateLearner l scope source = .ok (.done report q, source')) :
    (∃ after, Replaced p l before after q ∧ before.Continues after ∧ report.Tells before after ∧
      (before.action.NoNaN → (report.actionChanged = true ↔ after.action ≠ before.action))) ∧
    (report.changed = false →
      q = p ∧ report.rounds = p.settings.mutation.maxChangeAttempts) := by
  obtain ⟨corpus, hrounds⟩ : ∃ corpus, mutationRounds l scope corpus
      p.settings.mutation.maxChangeAttempts {} p source = .ok (.done report q, source') := by
    simp only [mutateLearner] at h
    by_cases hscope : scope.references.isEmpty = true
    · rw [if_pos hscope] at h
      exact ⟨none, h⟩
    · rw [if_neg hscope] at h
      cases hcorpus : p.uniquenessCorpus l scope.references with
      | error e =>
        rw [hcorpus] at h
        cases h
      | ok corpus =>
        rw [hcorpus] at h
        exact ⟨some corpus, h⟩
  obtain ⟨⟨_, -, after, hreplaced, hafter, htells⟩, hcount⟩ :=
    mutationRounds_accounts hl _ 0 _ _ _ hrounds
  refine ⟨⟨after, hreplaced, hafter, htells, htells.action_iff⟩, fun hsame => ?_⟩
  obtain rfl := htells.same hafter hsame
  exact ⟨hreplaced.eq hl, (hcount hsame).trans (Nat.zero_add _)⟩

/-- A learner of the first of three teams, whose action is the second. -/
def crossroads (m : MutationSettings) : Population where
  settings := { mutation := m }
  ranges := .ofSettings {}
  counters := ⟨1, 1, 3⟩
  teams := .ofList [(⟨0⟩, ⟨⟨0⟩, [⟨0⟩], 0, .empty⟩), (⟨1⟩, ⟨⟨1⟩, [], 1, .empty⟩),
    (⟨2⟩, ⟨⟨2⟩, [], 0, .empty⟩)]
  learners := .ofList [
    (⟨0⟩, ⟨⟨0⟩, ⟨⟨0⟩, [⟨1, 0, 0, 0, 0, 0⟩]⟩, .scalar, .full, 0, .team ⟨1⟩, 1, 8, []⟩)]

/-- The action is always changed for another team. -/
def turning : Population := crossroads { program := 0.0, action := 1.0, actionAtomic := 0.0 }

/-- Nothing is ever changed. -/
def idle : Population := crossroads { program := 0.0, action := 0.0, maxChangeAttempts := 2 }

theorem crossroads_tells :
    (∃ q source', turning.mutateLearner ⟨0⟩ ⟨some ⟨0⟩, [], []⟩ (.ofWords [0, 0, 0, 0, 0, 0, 0]) =
        .ok (.done { actionChanged := true, groupChanged := true, rounds := 1 } q, source') ∧
      ∃ before after, Replaced turning ⟨0⟩ before after q ∧ after.action ≠ before.action ∧
        after.group ≠ before.group ∧ after.program = before.program) ∧
    ∃ q source', idle.mutateLearner ⟨0⟩ ⟨some ⟨0⟩, [], []⟩ (.ofWords [0, 0, 0, 0, 0, 0, 0, 0]) =
        .ok (.done { rounds := 2 } q, source') ∧ q = idle := by
  constructor
  · obtain ⟨q, source', hmutate⟩ : ∃ q source', turning.mutateLearner ⟨0⟩ ⟨some ⟨0⟩, [], []⟩
        (.ofWords [0, 0, 0, 0, 0, 0, 0]) =
          .ok (.done { actionChanged := true, groupChanged := true, rounds := 1 } q, source') :=
      ⟨_, _, rfl⟩
    obtain ⟨⟨after, hreplaced, -, htells, haction⟩, -⟩ := mutateLearner_tells rfl hmutate
    exact ⟨q, source', hmutate, _, after, hreplaced, (haction trivial).1 rfl, htells.group.1 rfl,
      htells.program rfl⟩
  · obtain ⟨q, source', hmutate⟩ : ∃ q source', idle.mutateLearner ⟨0⟩ ⟨some ⟨0⟩, [], []⟩
        (.ofWords [0, 0, 0, 0, 0, 0, 0, 0]) = .ok (.done { rounds := 2 } q, source') := ⟨_, _, rfl⟩
    exact ⟨q, source', hmutate, ((mutateLearner_tells rfl hmutate).2 rfl).1⟩

end Population

end TangledPrograms
