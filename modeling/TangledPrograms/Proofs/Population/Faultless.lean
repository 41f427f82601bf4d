import TangledPrograms.Proofs.Machine.Bids
import TangledPrograms.Proofs.Placement
import TangledPrograms.Proofs.Population.Completion
import TangledPrograms.Proofs.Population.Distinctness
import TangledPrograms.Proofs.Population.Reached
import TangledPrograms.Proofs.Population.Refusal
import TangledPrograms.Proofs.Population.WellFormed
import TangledPrograms.Proofs.Program.Places

/-!
# Nothing goes wrong

Along a run with generated learners every program has an instruction and all windows lie in the block
that the settings describe. So no command asks an empty range for a value or wraps a coordinate into an
axis of length zero: only a want of random words stops it. Bids and changes use no place that is not
there, and the mutation of a live learner is never refused. It comes to an end on some words, unless
each of its rounds is certain to enter the trap in which the moves of a vector go on for ever.
-/

namespace TangledPrograms

open Draw
open Machine (Bank)

theorem Within.axis_pos {shape coords : List Nat} (h : Within shape coords) : ∀ d ∈ shape, 0 < d := by
  induction h with
  | nil => exact nofun
  | cons hlt _ ih => exact List.forall_mem_cons.2 ⟨Nat.zero_lt_of_lt hlt, ih⟩

theorem Addressing.WellPlaced.clear {s : AddressingSettings} {a : Addressing} (h : a.WellPlaced s) :
    a.Clear := fun x hx => Window.not_unwrappable (h.within x hx).axis_pos

/-- What the mutations of a learner rely on. -/
structure Learner.Ready (s : Settings) (l : Learner) : Prop where
  code : l.program.code ≠ []
  step : l.addressing.StepFits
  placed : l.addressing.WellPlaced s.addressing

/-- The windows of a ready learner are wrapped to lengths that are not zero as signed words. -/
theorem Learner.Ready.signedWord_ne_zero {s : Settings} {l : Learner} (h : l.Ready s)
    (hsmall : ∀ d ∈ s.addressing.sourceShape, d < 2 ^ 63) :
    ∀ d ∈ l.addressing.shape, signedWord (max d 1) ≠ 0 := by
  intro d hd
  have hwindows : l.addressing.kind ≠ .full := by
    intro hfull
    cases haddressing : l.addressing with
    | full =>
      rw [haddressing] at hd
      cases hd
    | window | multiWindow =>
      rw [haddressing] at hfull
      cases hfull
  rw [h.placed.shape hwindows] at hd
  have hlt := hsmall d hd
  rw [signedWord_of_lt (by omega)]
  omega

namespace Population

variable {s : Settings} {p₀ p : Population} {l : LearnerId} {scope : MutationScope}

/-- Readiness of all learners, as a law of single nodes. -/
private abbrev readiness (s : Settings) : NodeLaw :=
  ⟨fun _ _ => True, fun _ learner => learner.Ready s⟩

section law

variable (hsmall : ∀ d ∈ s.addressing.sourceShape, d < 2 ^ 63)
include hsmall

private theorem stable_readiness :
    (readiness s).Stable (· = .starved) s (.ofSettings s.program) := by
  apply NodeLaw.stable_of_learners
  · exact fun _ _ _ _ h => ⟨h.code, h.step, h.placed⟩
  · intro learner corpus h
    have hmutate := Program.meets_mutate (E := (· = .starved)) rfl (fun hnil => absurd hnil h.code)
      s.mutation (.ofSettings s.program) corpus
    exact hmutate.mono fun o ho => ⟨fun hnil => h.code (ho.nil hnil), h.step, h.placed⟩
  · exact fun _ h => ⟨h.code, h.step, h.placed⟩
  · exact fun _ _ h => ⟨h.code, h.step, h.placed⟩
  · intro learner h
    have hhalts := h.placed.clear.meets_perturb (E := (· = .starved)) rfl fun hstep =>
      absurd h.step hstep
    have hfits := (learner.addressing.meets_perturb (E := fun _ => True) trivial trivial
      fun _ => trivial).ensures
    have hplaced := h.placed.ensures_perturb hsmall
    refine ((hhalts.and_ensures hfits).and_ensures hplaced).mono fun o ho => ?_
    exact ⟨h.code, ho.1.2.2 h.step, ho.2⟩

private theorem lasting_readiness (hcheck : s.check = .ok ()) (hstep : s.addressing.stepSize < 2 ^ 63) :
    (readiness s).Lasting (· = .starved) s (.ofSettings s.program) where
  toStable := stable_readiness hsmall
  newTeam _ := trivial
  newLearner id := by
    have hpos := Settings.axis_pos hcheck
    have haxis : 0 ∉ s.addressing.sourceShape := fun hzero => Nat.lt_irrefl 0 (hpos 0 hzero)
    refine (Program.meets_random (E := (· = .starved)) rfl id _).mono fun program hcode => ?_
    have hfits := Addressing.meets_random (E := (· = .starved)) rfl (fun h => absurd h haxis) hstep
    refine (hfits.and_ensures (Addressing.ensures_random hpos)).mono fun addressing h => ?_
    exact fun _ _ _ _ _ _ => ⟨hcode, h.1, h.2⟩
  offspring _ _ _ _ h := ⟨h.code, h.step, h.placed⟩

/-- All learners of a run with generated learners are ready. -/
theorem Run.upholds_readiness (hnew : Population.new s = .ok p₀) (hstep : s.addressing.stepSize < 2 ^ 63)
    (h : Run Command.Generated p₀ p) : p.Upholds (readiness s) s (.ofSettings s.program) := by
  have hlaw := lasting_readiness hsmall (new_eq_ok hnew).1 hstep
  have hadmits : ∀ c, Command.Generated c → (readiness s).Admits s c := by
    intro c hc
    cases c with
    | addLearnerWith => exact hc.elim
    | _ => trivial
  exact (h.mono hadmits).upholds hlaw rfl (upholds_new hnew)

end law

/-- Along any run the counts are right and every node is under its own number. -/
theorem Run.filed_of_new {admits : Command → Prop} (hnew : Population.new s = .ok p₀)
    (h : Run admits p₀ p) : Filed p := by
  have hkeyed : p.Keyed := h.keyed (by
    obtain ⟨_, rfl⟩ := new_eq_ok hnew
    exact ⟨nofun, nofun⟩)
  exact hkeyed.filed (h.sound (.new hnew)).checkReferences

/-- A corpus is made of live learners. -/
theorem exists_uniquenessCorpus (hl : p.learners.contains l = true) {references : List LearnerId}
    (h : ∀ k ∈ references, p.learners.contains k = true) :
    ∃ corpus, p.uniquenessCorpus l references = .ok corpus := by
  have hlearner : ∀ {k}, p.learners.contains k = true → ∃ learner, p.learner k = .ok learner := by
    intro k hk
    obtain ⟨learner, hfind⟩ := OrderedMap.contains_iff.1 hk
    exact ⟨learner, by rw [Population.learner, hfind]⟩
  obtain ⟨target, htarget⟩ := hlearner hl
  have hblocks : ∀ k ∈ references, ∃ block,
      (do pure (p.referenceEntries target (← p.learner k))) = .ok block := by
    intro k hk
    obtain ⟨reference, hreference⟩ := hlearner (h k hk)
    exact ⟨p.referenceEntries target reference, by rw [hreference]; rfl⟩
  obtain ⟨entries, hentries⟩ := exists_ok_of_mapM hblocks
  refine ⟨⟨target.mode, p.settings.registers, entries.flatten⟩, ?_⟩
  simp only [uniquenessCorpus, htarget]
  change (references.mapM fun k => do pure (p.referenceEntries target (← p.learner k))).bind _ = _
  rw [hentries]
  rfl

/-- The mutation of a live learner with live references is not refused. -/
theorem Filed.mutateLearner_done (h : Filed p) (hl : p.learners.contains l = true)
    (hreferences : ∀ k ∈ scope.references, p.learners.contains k = true) :
    (p.mutateLearner l scope).Ensures fun e => ∃ report q, e = .done report q := by
  obtain ⟨corpus, hcorpus⟩ := exists_uniquenessCorpus hl hreferences
  refine (h.mutateLearner_of_live (R := fun _ _ => False) hl fun e he => ?_).mono fun e he => ?_
  · rw [hcorpus] at he
    cases he
  · cases e with
    | done report q => exact ⟨report, q, rfl⟩
    | refused e q => exact he.elim

/-- Ready learners can be mutated, unless that is ensnared. -/
theorem Upholds.canAnswer_mutateLearner (hsmall : ∀ d ∈ s.addressing.sourceShape, d < 2 ^ 63)
    (h : p.Upholds (readiness s) s (.ofSettings s.program)) (hm : p.settings.mutation.check = .ok ())
    (hpool : scope.pool.length < UInt64.size) (hfree : ¬ p.Ensnared l scope) :
    (p.mutateLearner l scope).CanAnswer := by
  have hkept : ∀ corpus, ∀ step ∈ roundSteps p.settings l scope corpus, step.Meets (· = .starved)
      (fun _ q => q.Upholds (readiness s) s (.ofSettings s.program))
      fun _ q => q.Upholds (readiness s) s (.ofSettings s.program) := by
    rw [h.settings]
    exact Upholds.meets_roundSteps (stable_readiness hsmall) rfl l scope
  refine Population.canAnswer_mutateLearner (K := fun q => q.Upholds (readiness s) s _) hm hpool h
    (fun _ hq => hq.settings.trans h.settings.symm) hkept
    (fun q learner hq hl => (hq.learner l learner hl).code) (fun q learner hq hl => ?_) hfree
  have hready := hq.learner l learner hl
  exact hready.placed.clear.canAnswer_perturb hready.step

/-- It is done, unless the words run out. -/
theorem Upholds.mutateLearner_done_or (hsmall : ∀ d ∈ s.addressing.sourceShape, d < 2 ^ 63)
    (h : p.Upholds (readiness s) s (.ofSettings s.program)) (hfiled : Filed p)
    (hl : p.learners.contains l = true)
    (hreferences : ∀ k ∈ scope.references, p.learners.contains k = true) (source : Source) :
    (∃ report q source', p.mutateLearner l scope source = .ok (.done report q, source')) ∨
      p.mutateLearner l scope source = .error .starved := by
  cases hrun : p.mutateLearner l scope source with
  | ok o =>
    obtain ⟨report, q, ho⟩ := hfiled.mutateLearner_done hl hreferences source o.1 o.2 hrun
    exact .inl ⟨report, q, o.2, by rw [← ho]⟩
  | error e =>
    have hmeets := h.mutateLearner (stable_readiness hsmall) rfl l scope
    obtain rfl : e = .starved := by
      by_contra hne
      exact hmeets.ne_error hne source hrun
    exact .inr rfl

/-- Ensnared, it never is. -/
theorem Upholds.mutateLearner_eq_starved (hsmall : ∀ d ∈ s.addressing.sourceShape, d < 2 ^ 63)
    (h : p.Upholds (readiness s) s (.ofSettings s.program)) (hfiled : Filed p)
    (hm : p.settings.mutation.check = .ok ()) (hl : p.learners.contains l = true)
    (hreferences : ∀ k ∈ scope.references, p.learners.contains k = true)
    (hensnared : p.Ensnared l scope) (source : Source) :
    p.mutateLearner l scope source = .error .starved := by
  refine (h.mutateLearner_done_or hsmall hfiled hl hreferences source).resolve_left ?_
  rintro ⟨report, q, source', hdone⟩
  obtain ⟨reason, q', hrefused⟩ := hensnared.ensures_mutateLearner hm _ _ _ hdone
  cases hrefused

/-- Some words are enough for it exactly if it is not ensnared. -/
theorem Upholds.mutateLearner_ends_iff (hsmall : ∀ d ∈ s.addressing.sourceShape, d < 2 ^ 63)
    (h : p.Upholds (readiness s) s (.ofSettings s.program)) (hfiled : Filed p)
    (hm : p.settings.mutation.check = .ok ()) (hl : p.learners.contains l = true)
    (hreferences : ∀ k ∈ scope.references, p.learners.contains k = true)
    (hpool : scope.pool.length < UInt64.size) :
    (∃ words report q, (p.mutateLearner l scope).Answers words (.done report q)) ↔
      ¬ p.Ensnared l scope := by
  constructor
  · rintro ⟨words, report, q, hanswers⟩ hensnared
    have hdone := hanswers _ (Source.shows_ofWords words)
    rw [h.mutateLearner_eq_starved hsmall hfiled hm hl hreferences hensnared] at hdone
    cases hdone
  · intro hfree
    obtain ⟨words, e, hanswers⟩ := h.canAnswer_mutateLearner hsmall hm hpool hfree
    obtain ⟨report, q, rfl⟩ := hfiled.mutateLearner_done hl hreferences _ e _
      (hanswers _ (Source.shows_ofWords words))
    exact ⟨words, report, q, hanswers⟩

/-- Commands that are given words never stop for any other reason than a want of them. -/
theorem Upholds.perform_halts (hlaw : (readiness s).Lasting (· = .starved) s (.ofSettings s.program))
    (h : p.Upholds (readiness s) s (.ofSettings s.program)) (c : Command) (source : Source)
    (e : Halt) (he : c.perform p source = .error e) : e = .starved := by
  have hstarved : (readiness s).Admits s c → e = .starved := fun hc => by
    by_contra hne
    exact (Command.upholds hlaw rfl h hc).ne_error hne source he
  cases c with
  | addLearnerWith => cases he
  | _ => exact hstarved trivial

/-- Nothing that is asked of a population goes wrong. The twins of its functions in which every place,
quotient and remainder is checked are the functions themselves. -/
structure Faultless (p : Population) : Prop where
  /-- A command stops without an answer only when the words are used up: no value is asked of an empty
  range, and nothing is wrapped into an axis of length zero. -/
  halts : ∀ (c : Command) source e, c.perform p source = .error e → e = .starved
  /-- A live learner bids without a fault on every input and every bank, be it an agent's own. -/
  bids : ∀ l learner, p.learners.find? l = some learner → ∀ (input : Observation) (bank : Bank),
    Machine.Flat.bid learner input bank.block =
      .ok ((learner.bid input bank).1, (learner.bid input bank).2.block)
  /-- Candidates for a corpus are run without a fault. -/
  candidates : ∀ (corpus : UniquenessCorpus) (program : Program) input, ∃ bank,
    Machine.Flat.execute program corpus.mode input corpus.registers.count corpus.bank.block 0 =
      .ok (corpus.output program input, bank)
  changes : ∀ lost rates, Program.Guarded.pass lost rates p.ranges = Program.pass rates p.ranges
  nudges : ∀ lost, ActionMutation.Guarded.nudge lost p.settings.mutation =
    ActionMutation.nudge p.settings.mutation
  /-- A moved coordinate is wrapped to a length that is not zero as a signed word. -/
  moves : ∀ l learner, p.learners.find? l = some learner →
    ∀ d ∈ learner.addressing.shape, signedWord (max d 1) ≠ 0
  /-- The mutation of a live learner with live references is never refused: on all words it is done, if
  they do not run out. -/
  mutations : ∀ l (scope : MutationScope), p.learners.contains l = true →
    (∀ k ∈ scope.references, p.learners.contains k = true) → ∀ source,
      (∃ report q source', p.mutateLearner l scope source = .ok (.done report q, source')) ∨
        p.mutateLearner l scope source = .error .starved
  /-- Some words are enough for it, unless it is ensnared; then none are. -/
  ends : ∀ l (scope : MutationScope), p.learners.contains l = true →
    (∀ k ∈ scope.references, p.learners.contains k = true) → scope.pool.length < UInt64.size →
      ((∃ words report q, (p.mutateLearner l scope).Answers words (.done report q)) ↔
        ¬ p.Ensnared l scope)

/-- Nothing goes wrong along a run with generated learners, if no size is negative as a signed word. -/
theorem Run.faultless (hnew : Population.new s = .ok p₀) (hstep : s.addressing.stepSize < 2 ^ 63)
    (hsmall : ∀ d ∈ s.addressing.sourceShape, d < 2 ^ 63) (h : Run Command.Generated p₀ p) :
    p.Faultless := by
  have hcheck := (new_eq_ok hnew).1
  have hready := h.upholds_readiness hsmall hnew hstep
  have hfiled := h.filed_of_new hnew
  constructor
  case halts => exact hready.perform_halts (lasting_readiness hsmall hcheck hstep)
  case bids => exact fun _ learner _ => Machine.Flat.bid_checked learner
  case candidates =>
    exact fun corpus program input => ⟨_, Machine.Flat.execute_checked program corpus.mode input
      corpus.registers.count corpus.bank 0⟩
  case changes => exact fun lost rates => funext (Program.Guarded.pass_eq lost rates p.ranges)
  case nudges => exact fun lost => funext (ActionMutation.Guarded.nudge_eq lost p.settings.mutation)
  case moves =>
    exact fun l learner hl => (hready.learner l learner hl).signedWord_ne_zero hsmall
  case mutations =>
    exact fun l scope hl hreferences => hready.mutateLearner_done_or hsmall hfiled hl hreferences
  case ends =>
    have hm : p.settings.mutation.check = .ok () := by
      rw [hready.settings]
      exact Settings.check_mutation hcheck
    exact fun l scope hl hreferences => hready.mutateLearner_ends_iff hsmall hfiled hm hl hreferences

/-- On a narrow block a learner and its clone are without fault; some words bring the mutation of the
one, with the other as a reference and a vector to take, to an end. -/
theorem exists_faultless_narrow : narrow.addressing.stepSize < 2 ^ 63 ∧
    (∀ d ∈ narrow.addressing.sourceShape, d < 2 ^ 63) ∧ ∃ p₀ p, Population.new narrow = .ok p₀ ∧
    Run Command.Generated p₀ p ∧ p.Faultless ∧ ∃ words report q,
      (p.mutateLearner ⟨0⟩ ⟨none, [.vector [0.5]], [⟨1⟩]⟩).Answers words (.done report q) := by
  obtain ⟨p₀, p, learner, clone, hnew, hrun, hl, hclone⟩ := exists_run_narrow
  have hfaultless := hrun.faultless hnew (by decide) (by decide)
  have hsettings : p.settings = narrow := (hrun.registers hnew).1
  have hlive : ∀ k ∈ [(⟨1⟩ : LearnerId)], p.learners.contains k = true :=
    List.forall_mem_singleton.2 (OrderedMap.contains_iff.2 ⟨clone, hclone⟩)
  have hends := hfaultless.ends ⟨0⟩ ⟨none, [.vector [0.5]], [⟨1⟩]⟩
    (OrderedMap.contains_iff.2 ⟨learner, hl⟩) hlive (by decide)
  refine ⟨by decide, by decide, p₀, p, hnew, hrun, hfaultless, hends.2 fun hensnared => ?_⟩
  obtain ⟨_, _, htraps⟩ := hensnared.trapped
  have hcertain := htraps.certain
  rw [hsettings] at hcertain
  exact absurd hcertain (by decide +kernel)

def endless : Settings :=
  { program := { maxLength := 1 }, mutation := { unending with program := 0.0, action := 1.0 } }

theorem ensnared_endless (hsettings : p.settings = endless) {learner : Learner}
    (hl : p.learners.find? ⟨0⟩ = some learner) (haction : learner.action = .atomic (.vector [0.5])) :
    p.Ensnared ⟨0⟩ ⟨none, [.vector [0.5]], []⟩ := by
  have hcertain : 1.0 ≤ p.settings.mutation.action.toFloat := by
    rw [hsettings]
    decide
  have hatomic : ¬ p.settings.mutation.actionAtomic.toFloat < 1.0 := by
    rw [hsettings]
    decide
  have hchange : 1.0 ≤ p.settings.mutation.changeVector.toFloat := by
    rw [hsettings]
    decide
  refine ⟨hcertain, learner, hl, ?_⟩
  rw [haction]
  exact ActionMutation.traps_vector hatomic hchange (by simp) none

/-- A generated learner that no words bring through its mutation. -/
theorem exists_endless : ∃ p₀ p, Population.new endless = .ok p₀ ∧ Run Command.Generated p₀ p ∧
    p.learners.contains ⟨0⟩ = true ∧
    ∀ source, p.mutateLearner ⟨0⟩ ⟨none, [.vector [0.5]], []⟩ source = .error .starved := by
  let p₀ : Population := ⟨endless, .ofSettings endless.program, .fresh, .empty, .empty⟩
  let commands : List (Command × Source) :=
    [(.addLearner (.atomic (.vector [0.5])), ⟨fun _ => 0, 0, 100⟩)]
  have hnew : Population.new endless = .ok p₀ := rfl
  have hall : ((Command.performAll commands p₀).map Prod.snd).map (fun p =>
      (p.learners.find? ⟨0⟩).map Learner.action) = .ok (some (.atomic (.vector [0.5]))) := by
    decide +kernel
  have hstart : Run Command.Generated p₀ p₀ := .start
  obtain ⟨p, hrun, hp⟩ := hstart.exists_performAll (by simp [commands, Command.Generated]) hall
  obtain ⟨learner, hl, haction⟩ := Option.map_eq_some_iff.1 hp
  have hsettings : p.settings = endless := (hrun.registers hnew).1
  have hm : p.settings.mutation.check = .ok () := by
    rw [hsettings]
    exact Settings.check_mutation (new_eq_ok hnew).1
  have hlive : p.learners.contains ⟨0⟩ = true := OrderedMap.contains_iff.2 ⟨learner, hl⟩
  have hready := hrun.upholds_readiness (by decide) hnew (by decide)
  exact ⟨p₀, p, hnew, hrun, hlive, hready.mutateLearner_eq_starved (by decide) (hrun.filed_of_new hnew)
    hm hlive (List.forall_mem_nil _) (ensnared_endless hsettings hl haction)⟩

end Population

end TangledPrograms
