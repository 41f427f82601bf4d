import TangledPrograms.Proofs.Population.Soundness

/-!
# Reached populations

Whatever commands a new population is given, with whatever arguments and random words, every
population reached is sound. So the recount always accepts, no count falls short, and no number is
handed out twice.
-/

namespace TangledPrograms

open Population (Sound Run)

/-- What a command leaves of a sound population `p`. -/
structure Command.Leaves (p : Population) (r : Reply × Population) : Prop where
  sound : Sound r.2
  nextTeam_le : p.counters.nextTeam ≤ r.2.counters.nextTeam
  nextLearner_le : p.counters.nextLearner ≤ r.2.counters.nextLearner
  counted : ∀ node, r.1.refusal? ≠ some (.referenceUnderflow node)
  newTeam : ∀ t, r.1 = .newTeam t → t.index = p.counters.nextTeam
  newLearner : ∀ l, r.1 = .newLearner l → l.index = p.counters.nextLearner

namespace Command.Leaves

variable {α : Type} {p q : Population}

private theorem of_keeps {e : Edited α} (h : e.Keeps p) (answer : α → Reply)
    (hplain : ∀ a, (answer a).refusal? = none ∧ ∀ t, answer a ≠ .newTeam t)
    (hlearner : ∀ a q, e = .done a q → ∀ l, answer a = .newLearner l →
      l.index = p.counters.nextLearner) : Leaves p (e.reply answer) := by
  cases e with
  | done a q =>
    refine ⟨h.sound, h.nextTeam_le, h.nextLearner_le, fun node hnode => ?_,
      fun t ht => absurd ht ((hplain a).2 t), hlearner a q rfl⟩
    have hnone : (answer a).refusal? = some (.referenceUnderflow node) := hnode
    rw [(hplain a).1] at hnone
    cases hnone
  | refused reason q =>
    exact ⟨h.sound, h.nextTeam_le, h.nextLearner_le,
      fun node hnode => h.counted node (congrArg _ (Option.some.inj hnode)),
      nofun, nofun⟩

private theorem of_keeps_plain {e : Edited α} (h : e.Keeps p) (answer : α → Reply)
    (hplain : ∀ a, (answer a).refusal? = none ∧ (∀ t, answer a ≠ .newTeam t) ∧
      ∀ l, answer a ≠ .newLearner l) : Leaves p (e.reply answer) :=
  of_keeps h answer (fun a => ⟨(hplain a).1, (hplain a).2.1⟩)
    fun a _ _ l hl => absurd hl ((hplain a).2.2 l)

private theorem of_newLearner {e : Edited LearnerId}
    (h : e.Keeps p ∧ ∀ l q, e = .done l q → l.index = p.counters.nextLearner) :
    Leaves p (e.reply .newLearner) :=
  of_keeps h.1 .newLearner (fun _ => ⟨rfl, nofun⟩)
    fun a q he l hl => by
      cases hl
      exact h.2 a q he

private theorem of_decided {d : Decision} (h : Sound q) (hc : q.counters = p.counters)
    (hd : ∀ node, d.result ≠ .error (.referenceUnderflow node)) : Leaves p (.decided d, q) := by
  refine ⟨h, Nat.le_of_eq (congrArg _ hc.symm), Nat.le_of_eq (congrArg _ hc.symm), fun node hnode => ?_,
    nofun, nofun⟩
  obtain ⟨_ | _, _, _, _⟩ := d
  · exact hd node (congrArg _ (Option.some.inj hnode))
  · cases hnode

private theorem same (h : Sound p) {r : Reply} (hr : r.refusal? = none)
    (ht : ∀ t, r ≠ .newTeam t) (hl : ∀ l, r ≠ .newLearner l) : Leaves p (r, p) :=
  ⟨h, Nat.le_refl _, Nat.le_refl _, fun _ hnode => (nomatch hr.symm.trans hnode),
    fun t h => absurd h (ht t), fun l h => absurd h (hl l)⟩

end Command.Leaves

namespace Population

/-- The recount accepts sound populations. -/
theorem Sound.checkReferences {p : Population} (h : Sound p) : p.checkReferences = .ok () := by
  refine (checkReferences_eq_ok_iff p).2 ⟨fun t ht => ?_, fun l hl => ?_, fun team hteam => ?_,
    fun learner hlearner => ?_⟩
  · obtain ⟨l, learner, hl, htarget⟩ := mem_actionTargets_iff.1 ht
    exact (h.learner l learner hl).live t htarget
  · obtain ⟨t, team, ht, hlisted⟩ := mem_memberships_iff.1 hl
    exact (h.team t team ht).live l hlisted
  · obtain ⟨t, ht⟩ := OrderedMap.mem_values_iff.1 hteam
    have hb := h.team t team ht
    have hcount := hb.count
    rw [count_actionTargets, hb.id_eq]
    omega
  · obtain ⟨l, hl⟩ := OrderedMap.mem_values_iff.1 hlearner
    have hb := h.learner l learner hl
    have hcount := hb.count
    have hnodup : ∀ team ∈ p.teams.values, team.members.Nodup := fun team hteam => by
      obtain ⟨t, ht⟩ := OrderedMap.mem_values_iff.1 hteam
      exact (h.team t team ht).nodup
    rw [count_memberships p hnodup, hb.id_eq]
    omega

end Population

/-- Every command leaves a sound population sound. -/
theorem Command.leaves {p : Population} (h : Sound p) (c : Command) :
    (c.perform p).Ensures (Leaves p) := by
  cases c with
  | addTeam =>
    refine .pure ⟨h.addTeam, Nat.le_succ _, Nat.le_refl _, nofun, fun t ht => ?_, nofun⟩
    cases ht
    rfl
  | createProgram =>
    refine (Population.createProgram_ensures p).bind fun r hr => .pure ?_
    obtain ⟨program, q⟩ := r
    subst hr
    exact ⟨h.takeProgram, Nat.le_refl _, Nat.le_refl _, nofun, nofun, nofun⟩
  | addLearner action =>
    exact (Population.keeps_addLearner h action).bind fun e he => .pure (.of_newLearner he)
  | addLearnerWith program action addressing group =>
    exact .pure (.of_newLearner (Population.keeps_addLearnerWith h program action addressing group))
  | cloneLearner parent => exact .pure (.of_newLearner (Population.keeps_cloneLearner h parent))
  | join t l =>
    exact .pure (.of_keeps_plain (Population.keeps_join h t l) _ fun _ => by simp [Reply.refusal?])
  | leave t l =>
    exact .pure (.of_keeps_plain (Population.keeps_leave h t l) _ fun _ => by simp [Reply.refusal?])
  | rewire l action =>
    exact .pure (.of_keeps_plain (Population.keeps_rewire h l action) _
      fun _ => by simp [Reply.refusal?])
  | removeTeam t =>
    exact .pure (.of_keeps_plain (Population.keeps_removeTeam h t) _
      fun _ => by simp [Reply.refusal?])
  | removeLearner l =>
    exact .pure (.of_keeps_plain (Population.keeps_removeLearner h l) _
      fun _ => by simp [Reply.refusal?])
  | mutateAction l parent pool =>
    exact (Population.keeps_mutateAction h l parent pool).bind fun e he =>
      .pure (.of_keeps_plain he _ fun _ => by simp [Reply.refusal?])
  | mutateLearner l scope =>
    exact (Population.keeps_mutateLearner h l scope).bind fun e he =>
      .pure (.of_keeps_plain he _ fun _ => by simp [Reply.refusal?])
  | actRecording t input bank =>
    obtain ⟨hsound, hcounters, hact⟩ := h.actRecording t input bank
    refine .pure (.of_decided hsound hcounters fun node => ?_)
    change (p.actRecording t input bank).1.result ≠ _
    rw [hact]
    exact Population.descend_ne_underflow p input _ bank [] t List.not_mem_nil node
  | commitScores t scores =>
    exact .pure (.of_keeps_plain (Population.keeps_commitScores h t scores) _
      fun _ => by simp [Reply.refusal?])
  | teamAct t input bank visited =>
    exact .pure (.of_decided h rfl fun node => Population.descend_ne_underflow _ _ _ _ _ _ _ node)
  | learnerAct l input bank visited =>
    exact .pure (.of_decided h rfl fun node => Population.learnerAct_ne_underflow _ _ _ _ _ node)
  | checkReferences =>
    simp only [perform]
    rw [h.checkReferences]
    exact .pure (.same h rfl (by simp) (by simp))
  | unreferenced => exact .pure (.same h rfl (by simp) (by simp))

namespace Population

theorem Sound.new {s : Settings} {p : Population} (h : Population.new s = .ok p) : Sound p := by
  obtain ⟨_, rfl⟩ := new_eq_ok h
  exact ⟨fun t team ht => by simp at ht, fun l learner hl => by simp at hl⟩

namespace Run

variable {admits : Command → Prop} {p₀ p p' : Population}

theorem sound (h : Run admits p₀ p) (h₀ : Sound p₀) : Sound p := by
  induction h with
  | start => exact h₀
  | step _ _ hperform ih => exact (Command.leaves ih _ _ _ _ hperform).sound

theorem counters_le (h : Run admits p p') (hp : Sound p) :
    p.counters.nextTeam ≤ p'.counters.nextTeam ∧
      p.counters.nextLearner ≤ p'.counters.nextLearner := by
  induction h with
  | start => exact ⟨Nat.le_refl _, Nat.le_refl _⟩
  | step hrun _ hperform ih =>
    have hleaves := Command.leaves (hrun.sound hp) _ _ _ _ hperform
    exact ⟨Nat.le_trans ih.1 hleaves.nextTeam_le, Nat.le_trans ih.2 hleaves.nextLearner_le⟩

end Run

/-- In every population that commands lead to from a new one, each node sits under its own number below
the counter, carries exactly the number of edges to it, and has edges to live nodes only, members
without repetition. The recount accepts it; no command finds a count too low, and none gives a node
the number of one that was live at any earlier point of the run. -/
theorem run_references {s : Settings} {p₀ p : Population} (h₀ : Population.new s = .ok p₀)
    (h : Run (fun _ => True) p₀ p) :
    (∀ t team, p.teams.find? t = some team → team.id = t ∧ t.index < p.counters.nextTeam ∧
      team.references = p.edgesTo t ∧ team.members.Nodup ∧
      ∀ l ∈ team.members, p.learners.contains l = true) ∧
    (∀ l learner, p.learners.find? l = some learner →
      learner.id = l ∧ l.index < p.counters.nextLearner ∧ learner.references = p.listings l ∧
      ∀ t, learner.action.target? = some t → p.teams.contains t = true) ∧
    p.checkReferences = .ok () ∧
    ∀ (c : Command) (source : Source) (reply : Reply) (p' : Population) (source' : Source),
      c.perform p source = .ok ((reply, p'), source') →
      (∀ node, reply.refusal? ≠ some (.referenceUnderflow node)) ∧
      (∀ t, reply = .newTeam t → ∀ p₁, Run (fun _ => True) p₀ p₁ → Run (fun _ => True) p₁ p →
        p₁.teams.find? t = none) ∧
      ∀ l, reply = .newLearner l → ∀ p₁, Run (fun _ => True) p₀ p₁ → Run (fun _ => True) p₁ p →
        p₁.learners.find? l = none := by
  have hsound := h.sound (.new h₀)
  refine ⟨fun t team ht => ?_, fun l learner hl => ?_, hsound.checkReferences,
    fun c source reply p' source' hperform => ?_⟩
  · have hb := hsound.team t team ht
    have hcount := hb.count
    exact ⟨hb.id_eq, hb.id_lt, by omega, hb.nodup, hb.live⟩
  · have hb := hsound.learner l learner hl
    have hcount := hb.count
    exact ⟨hb.id_eq, hb.id_lt, by omega, hb.live⟩
  · have hleaves := Command.leaves hsound c source _ source' hperform
    refine ⟨hleaves.counted, fun t ht p₁ h₁ h₂ => ?_, fun l hl p₁ h₁ h₂ => ?_⟩
    · have hsound₁ := h₁.sound (.new h₀)
      have hle := (h₂.counters_le hsound₁).1
      rw [← hleaves.newTeam t ht] at hle
      exact hsound₁.find?_of_le_nextTeam hle
    · have hsound₁ := h₁.sound (.new h₀)
      have hle := (h₂.counters_le hsound₁).2
      rw [← hleaves.newLearner l hl] at hle
      exact hsound₁.find?_of_le_nextLearner hle

/-- A new population with a team whose only member passes decisions on to the team itself. -/
theorem run_references_loop :
    let p₀ : Population := ⟨{}, .ofSettings {}, .fresh, .empty, .empty⟩
    let p₁ := p₀.addTeam.2
    let p₂ := (p₁.addLearnerWith ⟨⟨0⟩, [⟨1, 0, 0, 0, 0, 0⟩]⟩ (.team ⟨0⟩) .full 0).population
    let p₃ := (p₂.join ⟨0⟩ ⟨0⟩).population
    Population.new {} = .ok p₀ ∧ Run (fun _ => True) p₀ p₃ ∧ p₃.learners.contains ⟨0⟩ = true ∧
      p₃.checkReferences = .ok () := by
  intro p₀ p₁ p₂ p₃
  have h₀ : Population.new {} = .ok p₀ := rfl
  let source : Source := ⟨fun _ => 0, 0, 0⟩
  have h₁ : Command.addTeam.perform p₀ source = .ok ((.newTeam ⟨0⟩, p₁), source) := rfl
  have h₂ : (Command.addLearnerWith ⟨⟨0⟩, [⟨1, 0, 0, 0, 0, 0⟩]⟩ (.team ⟨0⟩) .full 0).perform p₁ source =
      .ok ((.newLearner ⟨0⟩, p₂), source) := rfl
  have h₃ : (Command.join ⟨0⟩ ⟨0⟩).perform p₂ source = .ok ((.done, p₃), source) := rfl
  have hrun : Run (fun _ => True) p₀ p₃ :=
    .step (.step (.step .start trivial h₁) trivial h₂) trivial h₃
  exact ⟨h₀, hrun, rfl, (run_references h₀ hrun).2.2.1⟩

end Population

end TangledPrograms
