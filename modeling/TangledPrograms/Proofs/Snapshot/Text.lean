import TangledPrograms.Proofs.Snapshot.Documents
import TangledPrograms.Proofs.Snapshot.Resume

/-!
# Snapshots are read back from their texts

A snapshot keeps whole numbers, words and floats. Only floats can be lost in its text: one that is not
finite has no text that reads as a number, and some that are finite are read back as a neighbour. The
text is read if all floats are readable in it, and as the snapshot that was written, but for memories,
if all of them are read back.
-/

namespace TangledPrograms

open Document
open Population (Run)

namespace Binary64

/-- What is read where the number was written, if anything is. -/
def reread (x : Binary64) : Option Binary64 := (Decimal.reread x.toFloat).map ofFloat

/-- A number is read where this one was written. -/
def Readable (x : Binary64) : Prop := x.reread.isSome = true

/-- This number is read where it was written. -/
def Legible (x : Binary64) : Prop := x.reread = some x

instance : DecidablePred Legible := fun x => decEq x.reread (some x)

instance : DecidablePred Readable := fun x => decEq x.reread.isSome true

theorem conveys (x : Binary64) : Conveys read x.document x x.Legible x.Readable := by
  refine ⟨x.reread, ?_, Iff.rfl, Iff.rfl⟩
  have hfloat := (float_gives x.toFloat).map (f := fun y => (pure (ofFloat y) : Reader Char Binary64))
    (g := ofFloat) fun _ => rfl
  rw [reread]
  cases h : Decimal.reread x.toFloat with
  | none =>
    rw [h] at hfloat
    exact hfloat
  | some y =>
    rw [h] at hfloat
    exact hfloat

/-- A number's own text parses to it if it is legible, and to nothing if it is not readable. -/
theorem parse_pretty (x : Binary64) : (parse read x.document.pretty = .ok x ↔ x.Legible) ∧
    (parse read x.document.pretty = .error .malformed ↔ ¬x.Readable) := by
  obtain ⟨hsame, hfail⟩ := x.conveys.readAll_pretty
  exact ⟨parse_eq_ok_iff.trans hsame, parse_eq_malformed_iff.trans hfail⟩

theorem Readable.isFinite {x : Binary64} (h : x.Readable) : x.toFloat.isFinite = true := by
  by_contra hfinite
  rw [Readable, reread, Decimal.reread, if_neg hfinite] at h
  cases h

end Binary64

theorem Scores.conveys (s : Scores) :
    Conveys read (Scores.document s) s (∀ x ∈ s.values, x.Legible) (∀ x ∈ s.values, x.Readable) :=
  orderedMap_conveys fun x _ => x.conveys

def MutationSettings.numbers (m : MutationSettings) : List Binary64 :=
  Rate.all.map m.rate ++ [m.vectorNoise, m.uniqueThreshold]

theorem MutationSettings.conveys (m : MutationSettings) (h : m.Fits) :
    Conveys read m.document m (∀ x ∈ m.numbers, x.Legible) (∀ x ∈ m.numbers, x.Readable) := by
  obtain ⟨hunique, hchange⟩ := h
  refine Conveys.congr (Fields.Conveys.made
    (.field m.program.conveys (.field m.programRepeat.conveys
      (.field m.action.conveys (.field m.actionAtomic.conveys
        (.field m.deleteInstruction.conveys (.field m.addInstruction.conveys
          (.field m.swapInstruction.conveys (.field m.mutateInstruction.conveys
            (.field m.swapVector.conveys (.field m.changeVector.conveys
              (.field m.vectorNoise.conveys (.field m.uniqueThreshold.conveys
                (.plain (size_recovers hunique) (.plain (size_recovers hchange) .done))))))))))))))
    (by simp [Rate.name]) (by simp) (fun _ => rfl) ?_) ?_ ?_
  · rintro ⟨_, _, _, _, _, _, _, _, _, _, _, _, _, _, _⟩ h
    cases h
    rfl
  · simp [numbers, Rate.all, rate]
  · simp [numbers, Rate.all, rate]

theorem Settings.conveys (s : Settings) (h : s.Fits) :
    Conveys read s.document s (∀ x ∈ s.mutation.numbers, x.Legible)
      (∀ x ∈ s.mutation.numbers, x.Readable) := by
  refine Conveys.congr (Fields.Conveys.made
    (.plain (s.program.recovers h.maxLength) (.plain (s.registers.recovers h.registers)
      (.plain (s.addressing.recovers h.addressing) (.field (s.mutation.conveys h.mutation)
        (.plain (size_recovers h.stateHistory) .done)))))
    (by simp) (by simp) (fun _ => rfl) ?_) (and_iff_left trivial) (and_iff_left trivial)
  rintro ⟨_, _, _, _, _, _⟩ h
  cases h
  rfl

def AtomicAction.numbers : AtomicAction → List Binary64
  | .label _ => []
  | .vector xs => xs

theorem AtomicAction.conveys : ∀ a : AtomicAction,
    Conveys read a.document a (∀ x ∈ a.numbers, x.Legible) (∀ x ∈ a.numbers, x.Readable)
  | .label n => by
    refine Conveys.congr (Recovers.conveys (variant_tagged_gives rfl rfl
      ((signed_recovers n).finish rfl))) ?_ ?_ <;> simp [numbers]
  | .vector xs => by
    have hitems := items_conveys fun x (_ : x ∈ xs) => x.conveys
    rw [List.map_id'] at hitems
    refine variant_tagged_conveys rfl rfl (hitems.map (fun _ => rfl) fun x h => ?_)
    cases h
    rfl

def Action.numbers : Action → List Binary64
  | .atomic a => a.numbers
  | .team _ => []

theorem Action.conveys : ∀ a : Action, a.Fits →
    Conveys read a.document a (∀ x ∈ a.numbers, x.Legible) (∀ x ∈ a.numbers, x.Readable)
  | .atomic a, _ => by
    refine variant_tagged_conveys rfl rfl (a.conveys.map (fun _ => rfl) fun x h => ?_)
    cases h
    rfl
  | .team t, h => by
    refine Conveys.congr (Recovers.conveys (variant_tagged_gives rfl rfl
      ((t.recovers h).finish rfl))) ?_ ?_ <;> simp [numbers]

theorem ids_recover {k : Kind} {ids : List (Id k)} (h : FitsAll Id.Fits ids) :
    Recovers (items Id.read) (.naturals (ids.map (·.index))) ids := by
  have hitems := items_recovers_map fun a ha => Id.recovers a (h.2 a ha)
  rw [List.map_id'] at hitems
  rwa [Document.naturals, List.map_map]

theorem Team.conveys (t : Team) (h : t.Fits) :
    Conveys read t.document t (∀ x ∈ t.scores.values, x.Legible)
      (∀ x ∈ t.scores.values, x.Readable) := by
  refine Conveys.congr (Fields.Conveys.made
    (.plain (t.id.recovers h.id) (.plain (ids_recover h.members)
      (.plain (natBelow_recovers h.references (by decide))
        (.field (Scores.conveys t.scores) .done))))
    (by simp) (by simp) (fun _ => rfl) ?_) (and_iff_left trivial) (and_iff_left trivial)
  rintro ⟨_, _, _, _, _⟩ h
  cases h
  rfl

/-- A learner comes back without its memory. -/
theorem Learner.conveys (l : Learner) (hc : l.addressing.Coherent) (h : l.Fits) :
    Conveys read l.document l.forget (∀ x ∈ l.action.numbers, x.Legible)
      (∀ x ∈ l.action.numbers, x.Readable) := by
  refine Conveys.congr (Fields.Conveys.made
    (.plain (l.id.recovers h.id) (.plain (l.program.recovers h.program)
      (.plain l.mode.recovers (.plain (l.addressing.recovers hc h.addressing)
        (.plain (size_recovers h.group) (.field (l.action.conveys h.action)
          (.plain (natBelow_recovers h.references (by decide))
            (.plain (size_recovers h.registers) .done))))))))
    (by simp) (by simp) (fun _ => rfl) ?_) (and_iff_left trivial) (and_iff_left trivial)
  rintro ⟨_, _, _, _, _, _, _, _, _⟩ h
  cases h
  rfl

theorem AgentRecord.conveys (a : AgentRecord) (h : a.Fits) :
    Conveys read a.document a (∀ x ∈ a.scores.values, x.Legible)
      (∀ x ∈ a.scores.values, x.Readable) := by
  obtain ⟨hroot, hnumber, -⟩ := h
  refine Conveys.congr (Fields.Conveys.made
    (.plain (a.root.recovers hroot) (.plain (size_recovers hnumber)
      (.field (Scores.conveys a.scores) .done)))
    (by simp) (by simp) (fun _ => rfl) ?_) (and_iff_left trivial) (and_iff_left trivial)
  rintro ⟨_, _, _, _⟩ h
  cases h
  rfl

namespace Snapshot

variable {F : TimeFormat}

/-- Every float of a snapshot: of the settings, of the teams' scores, of the learners' vectors and of
the agents' scores. -/
def numbers (s : Snapshot F) : List Binary64 :=
  s.settings.mutation.numbers ++ s.teams.flatMap (·.scores.values) ++
    s.learners.flatMap (·.action.numbers) ++ s.agents.flatMap (·.scores.values)

theorem conveys {s : Snapshot F} (h : s.Fits) :
    Conveys (read F) s.document s.forget (∀ x ∈ s.numbers, x.Legible) (∀ x ∈ s.numbers, x.Readable) := by
  have hteams := items_conveys fun t ht => Team.conveys t (h.teams.2 t ht)
  have hlearners := items_conveys fun l hl =>
    Learner.conveys l (h.learners.2 l hl).1 (h.learners.2 l hl).2
  have hagents := items_conveys fun a ha => AgentRecord.conveys a (h.agents.2 a ha)
  rw [List.map_id'] at hteams hagents
  refine Conveys.congr (Fields.Conveys.made
    (.plain (natBelow_recovers h.version (by decide)) (.plain (Timestamp.recovers h.savedAt)
      (.field (s.settings.conveys h.settings) (.plain (s.ranges.recovers h.ranges)
        (.plain (s.counters.recovers h.counters) (.field hteams (.field hlearners
          (.field hagents .done))))))))
    (by simp) (by simp) (fun _ => rfl) ?_) ?_ ?_
  · rintro ⟨_, _, _, _, _, _, _, _, _⟩ h
    cases h
    rfl
  all_goals simp only [numbers, List.forall_mem_append, List.forall_mem_flatMap, and_true, and_assoc]

/-- The text of a snapshot is read as the snapshot without memories exactly if its floats are legible,
and is malformed exactly if one of them is not readable. -/
theorem ofText_text {s : Snapshot F} (h : s.Fits) :
    (ofText s.text F = .ok s.forget ↔ ∀ x ∈ s.numbers, x.Legible) ∧
      (ofText s.text F = .error .malformed ↔ ∃ x ∈ s.numbers, ¬x.Readable) := by
  obtain ⟨hsame, hfail⟩ := (conveys h).readAll_pretty
  constructor
  · rw [ofText, parse_eq_ok_iff, ← hsame, text]
  · rw [ofText, parse_eq_malformed_iff, text, hfail]
    push Not
    rfl

end Snapshot

namespace Population

/-- The snapshot of a reached population with its agents, whose numbers fit their types, is read back
from its text, but for the learners' memories, exactly if every float it keeps is read back from its own
text. If one of them is not readable, above all one that is not finite, the text is malformed; and it is
malformed only then. -/
theorem text_reloads_iff {s : Settings} {p₀ p : Population} (h₀ : Population.new s = .ok p₀)
    (h : Run Command.Coherent p₀ p) (hp : p.Fits) {F : TimeFormat} {savedAt : Timestamp F}
    (hsaved : savedAt.Legible) {agents : List Agent}
    (ha : FitsAll AgentRecord.Fits (agents.map Agent.record)) :
    let saved := (Snapshot.capture p savedAt).withAgents agents
    (Snapshot.ofText saved.text F = .ok ((Snapshot.capture p.forget savedAt).withAgents agents) ↔
      ∀ x ∈ saved.numbers, x.Legible) ∧
    (Snapshot.ofText saved.text F = .error .malformed ↔ ∃ x ∈ saved.numbers, ¬x.Readable) ∧
    ∀ x : Binary64, (x.toFloat.isFinite = false → ¬x.Readable) ∧
      (parse Binary64.read x.document.pretty = .ok x ↔ x.Legible) ∧
      (parse Binary64.read x.document.pretty = .error .malformed ↔ ¬x.Readable) := by
  intro saved
  have hcoherent := h.coherent (.new h₀)
  obtain ⟨hsame, hfail⟩ := Snapshot.ofText_text (Snapshot.fits_capture hcoherent hp hsaved ha)
  rw [Snapshot.forget_capture] at hsame
  refine ⟨hsame, hfail, fun x => ⟨fun hx hread => ?_, x.parse_pretty⟩⟩
  rw [hread.isFinite] at hx
  cases hx

/-- A team with one score. -/
def graded (x : Binary64) : Population where
  settings := {}
  ranges := .ofSettings {}
  counters := ⟨0, 0, 1⟩
  teams := .ofList [(⟨0⟩, ⟨⟨0⟩, [], 0, .ofList [(Agent.defaultTask, x)]⟩)]
  learners := .empty

/-- An agent of a lone team leaves the score that it is rewarded with on the team. -/
theorem exists_run_graded : ∃ p₀ p a, Population.new {} = .ok p₀ ∧ Run Command.Coherent p₀ p ∧
    Agent.new p ⟨0⟩ 0 = .ok a ∧ ∀ x, (a.reward x none).commit p = .done () (graded x) ∧
      Run Command.Coherent p₀ (graded x) := by
  let p₀ : Population := ⟨{}, .ofSettings {}, .fresh, .empty, .empty⟩
  let source : Source := ⟨fun _ => 0, 0, 0⟩
  have h₀ : Population.new {} = .ok p₀ := by
    have hcheck : Settings.check {} = .ok () := by decide +kernel
    simp only [Population.new, hcheck]
    rfl
  have hteam : Command.addTeam.perform p₀ source = .ok ((.newTeam ⟨0⟩, p₀.addTeam.2), source) := rfl
  have hadmitted : ∀ x, Command.Coherent (.commitScores ⟨0⟩ (.ofList [(Agent.defaultTask, x)])) ∧
      Command.Coherent .addTeam := fun _ => ⟨trivial, trivial⟩
  have hrun : Run Command.Coherent p₀ p₀.addTeam.2 := .step .start (hadmitted 0.0).2 hteam
  refine ⟨p₀, p₀.addTeam.2, _, h₀, hrun, rfl, fun x => ⟨rfl, ?_⟩⟩
  have hcommit : (Command.commitScores ⟨0⟩ (.ofList [(Agent.defaultTask, x)])).perform p₀.addTeam.2
      source = .ok ((.done, graded x), source) := rfl
  exact .step hrun (hadmitted x).1 hcommit

theorem graded_fits (x : Binary64) : (graded x).Fits := by
  have hzero : FitsWord 0 := by decide
  have hone : FitsWord 1 := by decide
  have hsettings : Settings.Fits {} := by
    refine ⟨?_, ⟨?_, ?_, ?_⟩, ⟨⟨?_, ?_⟩, ?_, ?_, ?_⟩, ⟨?_, ?_⟩, ?_⟩ <;> decide
  refine ⟨hsettings, (show FitsWord 128 by decide), ⟨hzero, hzero, hone⟩,
    ⟨hone, fun t ht => ?_⟩, ⟨hzero, nofun⟩⟩
  obtain rfl := List.mem_singleton.1 ht
  refine ⟨hzero, ⟨hzero, nofun⟩, show 0 < 2 ^ 32 by decide, hone, fun e he => ?_⟩
  obtain rfl := List.mem_singleton.1 he
  exact show FitsWord Agent.defaultTask.utf8ByteSize by decide

theorem half_reloads :
    let evaluator : Agent := ⟨⟨0⟩, 3, .zeros 1 1, .ofList [("other", 0.25)]⟩
    let saved := (Snapshot.capture (graded 0.5) .epoch).withAgents [evaluator]
    ∃ p₀, Population.new {} = .ok p₀ ∧ Run Command.Coherent p₀ (graded 0.5) ∧
      Snapshot.ofText saved.text =
        .ok ((Snapshot.capture (graded 0.5).forget .epoch).withAgents [evaluator]) := by
  intro evaluator saved
  obtain ⟨p₀, p, a, h₀, -, -, hcommit⟩ := exists_run_graded
  have hrun := (hcommit 0.5).2
  have hagents : FitsAll AgentRecord.Fits ([evaluator].map Agent.record) := by
    refine ⟨by decide, fun r hr => ?_⟩
    obtain rfl := List.mem_singleton.1 hr
    refine ⟨show FitsWord 0 by decide, show FitsWord 3 by decide, by decide, fun e he => ?_⟩
    obtain rfl := List.mem_singleton.1 he
    decide
  have hlegible : ∀ x ∈ saved.numbers, x.Legible := by decide +kernel
  exact ⟨p₀, h₀, hrun,
    (text_reloads_iff h₀ hrun (graded_fits 0.5) Timestamp.legible_epoch hagents).1.2 hlegible⟩

/-- A NaN, and the eleventh part of one. -/
theorem scores_lost_in_text :
    let nan : Binary64 := ⟨0x7ff8000000000000⟩
    let eleventh : Binary64 := .ofFloat (1.0 / 11.0)
    let saved := fun x => (Snapshot.capture (graded x) .epoch).withAgents []
    ∃ p₀ p a, Population.new {} = .ok p₀ ∧ Run Command.Coherent p₀ p ∧ Agent.new p ⟨0⟩ 0 = .ok a ∧
      ((a.reward nan none).commit p = .done () (graded nan) ∧
        Snapshot.ofText (saved nan).text = .error .malformed) ∧
      ((a.reward eleventh none).commit p = .done () (graded eleventh) ∧
        Snapshot.ofText (saved eleventh).text ≠ .ok (saved eleventh).forget) := by
  intro nan eleventh saved
  obtain ⟨p₀, p, a, h₀, hrun, ha, hcommit⟩ := exists_run_graded
  have hread : ∀ x, (Snapshot.ofText (saved x).text = .ok (saved x).forget ↔
      ∀ y ∈ (saved x).numbers, y.Legible) ∧
      (Snapshot.ofText (saved x).text = .error .malformed ↔ ∃ y ∈ (saved x).numbers, ¬y.Readable) :=
    fun x => Snapshot.ofText_text (Snapshot.fits_capture ((hcommit x).2.coherent (.new h₀))
      (graded_fits x) Timestamp.legible_epoch ⟨by decide, nofun⟩)
  have hmem : ∀ x, x ∈ (saved x).numbers := fun x => by
    have hscore : x ∈ ((graded x).teams.values.flatMap (·.scores.values)) := List.mem_singleton_self x
    simp only [saved, Snapshot.numbers, List.mem_append]
    exact .inl (.inl (.inr hscore))
  refine ⟨p₀, p, a, h₀, hrun, ha, ⟨(hcommit nan).1, ?_⟩, ⟨(hcommit eleventh).1, ?_⟩⟩
  · exact (hread nan).2.2 ⟨nan, hmem nan, by decide +kernel⟩
  · intro h
    exact absurd ((hread eleventh).1.1 h _ (hmem eleventh)) (by decide +kernel)

end Population

end TangledPrograms
