import Mathlib.Data.List.DropRight
import TangledPrograms.Proofs.Decision.Success
import TangledPrograms.Proofs.Population.Edits

/-!
# What a recorded decision leaves

A recorded decision is the decision itself. If it fails, it leaves no trace. If it comes to an
action, each learner has as many copies of the input behind its memory as it has made bids, and forgets
the oldest observations beyond the limit.
-/

namespace TangledPrograms

open Machine (Bank)

/-- What has been pushed out does not matter to what is pushed out next. -/
private theorem rtake_rtake_concat {α : Type} (l : List α) (x : α) (n : Nat) :
    (l.rtake n ++ [x]).rtake n = (l ++ [x]).rtake n := by
  cases n with
  | zero => simp
  | succ n =>
    have htake : (l.rtake (n + 1)).rtake n = l.rtake n := by
      simp [List.rtake_eq_reverse_take_reverse, List.take_take]
    rw [List.rtake_concat_succ, List.rtake_concat_succ, htake]

namespace Learner

/-- The learner after so many bids on one input: the copies are behind what it remembered, and the
last `limit` observations stay. Without a bid nothing changes, and nothing does with a limit of zero. -/
def recording (l : Learner) (input : Observation) (limit bids : Nat) : Learner :=
  if bids = 0 ∨ limit = 0 then l
  else { l with memory := (l.memory ++ List.replicate bids input).rtake limit }

/-- One more observation pushes the oldest one out. -/
theorem remember_eq_rtake (l : Learner) (input : Observation) {limit : Nat} (h : limit ≠ 0) :
    l.remember input limit = { l with memory := (l.memory ++ [input]).rtake limit } := by
  obtain ⟨n, rfl⟩ := Nat.exists_eq_succ_of_ne_zero h
  rw [remember, if_neg h, List.rtake_concat_succ, List.rtake, Nat.succ_eq_add_one,
    Nat.add_sub_add_right]

theorem remember_recording (l : Learner) (input : Observation) (limit bids : Nat) :
    (l.recording input limit bids).remember input limit = l.recording input limit (bids + 1) := by
  by_cases hlimit : limit = 0
  · simp [recording, remember, hlimit]
  · rw [remember_eq_rtake _ input hlimit]
    cases bids with
    | zero => simp [recording, hlimit]
    | succ n =>
      simp only [recording, hlimit, Nat.add_eq_zero_iff, one_ne_zero, and_false, or_self, if_false]
      rw [rtake_rtake_concat, List.append_assoc, ← List.replicate_succ']

end Learner

/-- Only live learners bid, in any team of a decision. -/
theorem Decides.live_bidders {p : Population} {input : Observation} {visited : List TeamId}
    {bank last : Bank} {t : TeamId} {chain : List TeamId} {bidders : List LearnerId}
    {result : Except PopulationError AtomicAction}
    (h : Decides p input visited bank t chain bidders result last) :
    ∀ l ∈ bidders, p.learners.contains l = true := by
  have hbids {visited bank t bids after} (hpolls : Polls p input visited bank t bids after) :
      ∀ l ∈ bids.map (·.entry.1), p.learners.contains l = true :=
    List.forall_mem_map.2 fun b hb => OrderedMap.contains_iff.2 ⟨_, (hpolls.of_mem hb).2⟩
  induction h with
  | stuck => simp
  | ends hpolls => exact hbids hpolls
  | follows hpolls _ _ _ ih => exact List.forall_mem_append.2 ⟨hbids hpolls, ih⟩

namespace Population

variable {p : Population}

/-- A decision that comes to an action is a chain of polls, whatever else the population holds. -/
theorem act_decides_of_ok {t : TeamId} {input : Observation} {bank : Bank} {a : AtomicAction}
    (h : (p.act t input bank).result = .ok a) : ∃ chain, Decides p input [] bank t chain
      (p.act t input bank).bidders (.ok a) (p.act t input bank).bank := by
  obtain ⟨chain, made, hdecides, hmade, -⟩ | ⟨e, he, -⟩ :=
    descend_decides_or_missing (p := p) input [] bank [] t (by simp) [] fun _ => Iff.rfl
  · rw [List.nil_append] at hmade
    rw [← hmade] at hdecides
    exact ⟨chain, h ▸ hdecides⟩
  · exact absurd (h.symm.trans he) nofun

/-- Remembering changes learners only. -/
theorem rememberAll_eq (p : Population) (input : Observation) (ls : List LearnerId) :
    p.rememberAll input ls = { p with learners := (p.rememberAll input ls).learners } := by
  induction ls generalizing p with
  | nil => rfl
  | cons l ls ih => exact ih _

/-- Each learner remembers the input as often as it is listed. -/
theorem find?_rememberAll (p : Population) (input : Observation) (ls : List LearnerId)
    (l : LearnerId) :
    (p.rememberAll input ls).learners.find? l = (p.learners.find? l).map fun learner =>
      learner.recording input p.settings.stateHistory (ls.count l) := by
  -- The list grows at its end, where one more bid is remembered after all the others.
  induction ls using List.reverseRecOn with
  | nil => simp [rememberAll, Learner.recording]
  | append_singleton ls k ih =>
    have hlast : p.rememberAll input (ls ++ [k]) = (p.rememberAll input ls).modifyLearner k
        fun learner => learner.remember input p.settings.stateHistory := by
      have hsettings := congrArg settings (p.rememberAll_eq input ls)
      rw [← hsettings]
      simp only [rememberAll, List.foldl_append, List.foldl_cons, List.foldl_nil]
    rw [hlast, find?_modifyLearner, ih, Option.map_map, List.count_append]
    congr 1
    funext learner
    by_cases hlk : l = k
    · subst hlk
      simp [Learner.remember_recording]
    · have hkl : k ≠ l := fun e => hlk e.symm
      simp [hlk, hkl]

/-- On any population, recording makes the same decision and leaves the same bank. If the decision
fails, the population is unchanged. Otherwise the bidders are those of the chain of teams that has
decided, all of them live; each learner has then remembered the input once for each of its bids, and
nothing else in the population has changed. -/
theorem actRecording_remembers (p : Population) (t : TeamId) (input : Observation) (bank : Bank) :
    let d := p.act t input bank
    let r := p.actRecording t input bank
    r.1 = d ∧
    (∀ e, d.result = .error e → r.2 = p) ∧
    ∀ a, d.result = .ok a →
      (∃ chain, Decides p input [] bank t chain d.bidders (.ok a) d.bank) ∧
      (∀ l ∈ d.bidders, p.learners.contains l = true) ∧
      r.2 = { p with learners := r.2.learners } ∧
      ∀ l, r.2.learners.find? l = (p.learners.find? l).map fun learner =>
        learner.recording input p.settings.stateHistory (d.bidders.count l) := by
  intro d r
  refine ⟨p.actRecording_fst t input bank, fun e he => ?_, fun a ha => ?_⟩
  · simp only [r, actRecording]
    rw [show (p.act t input bank).result = .error e from he]
  · have hr : r.2 = p.rememberAll input d.bidders := by
      simp only [r, actRecording]
      rw [show (p.act t input bank).result = .ok a from ha]
    obtain ⟨chain, hdecides⟩ := act_decides_of_ok ha
    rw [hr]
    exact ⟨⟨chain, hdecides⟩, hdecides.live_bidders, p.rememberAll_eq input d.bidders,
      p.find?_rememberAll input d.bidders⟩

def zeroNumber : Observation := { oneNumber with values := #[0.0], volume_shape := rfl }

/-- The rivals, each of which remembers as much as it may. -/
def replete : Population :=
  { rivals with
    settings := { stateHistory := 2 }
    learners := rivals.learners.mapValues fun l => { l with memory := [oneNumber, zeroNumber] } }

/-- In a decision of the first team its own learner bids once and pushes out the older observation; one
that is a member of the second team too bids twice, and one that would lead back does not bid. That of a
team that is not there changes nothing. -/
theorem replete_remembers :
    let d := replete.act ⟨0⟩ oneNumber (.zeros 1 1)
    let r := replete.actRecording ⟨0⟩ oneNumber (.zeros 1 1)
    d.result = .ok (.label 7) ∧ d.bidders = [⟨1⟩, ⟨0⟩, ⟨5⟩, ⟨4⟩, ⟨1⟩, ⟨3⟩, ⟨5⟩, ⟨3⟩] ∧
    (r.2.learners.find? ⟨0⟩).map Learner.memory = some [zeroNumber, oneNumber] ∧
    (r.2.learners.find? ⟨5⟩).map Learner.memory = some [oneNumber, oneNumber] ∧
    r.2.learners.find? ⟨2⟩ = replete.learners.find? ⟨2⟩ ∧
    (replete.act ⟨3⟩ oneNumber (.zeros 1 1)).result = .error (.unknownTeam ⟨3⟩) ∧
    (replete.actRecording ⟨3⟩ oneNumber (.zeros 1 1)).2 = replete := by
  intro d r
  have hrun : (Turn.walk replete oneNumber 4 ⟨⟨0⟩, [], .zeros 1 1, []⟩).map
      (fun d => (d.result, d.bidders)) =
        some (.ok (.label 7), [⟨1⟩, ⟨0⟩, ⟨5⟩, ⟨4⟩, ⟨1⟩, ⟨3⟩, ⟨5⟩, ⟨3⟩]) := rfl
  have hwalk : Turn.walk replete oneNumber 4 ⟨⟨0⟩, [], .zeros 1 1, []⟩ = some d :=
    walk_teamAct replete oneNumber ⟨0⟩ [] (.zeros 1 1)
  rw [hwalk] at hrun
  obtain ⟨hok, hbidders⟩ := Prod.mk.inj (Option.some.inj hrun)
  have herror : (replete.act ⟨3⟩ oneNumber (.zeros 1 1)).result = .error (.unknownTeam ⟨3⟩) := by
    rw [act, teamAct, descend]
    rfl
  obtain ⟨-, -, hsucceeds⟩ := actRecording_remembers replete ⟨0⟩ oneNumber (.zeros 1 1)
  obtain ⟨-, -, -, hmemory⟩ := hsucceeds _ hok
  obtain ⟨-, hfails, -⟩ := actRecording_remembers replete ⟨3⟩ oneNumber (.zeros 1 1)
  have hcount (l : LearnerId) : r.2.learners.find? l = (replete.learners.find? l).map fun learner =>
      learner.recording oneNumber 2
        ([⟨1⟩, ⟨0⟩, ⟨5⟩, ⟨4⟩, ⟨1⟩, ⟨3⟩, ⟨5⟩, ⟨3⟩].count l) := by
    rw [← show d.bidders = _ from hbidders]
    exact hmemory l
  exact ⟨hok, hbidders, (congrArg _ (hcount ⟨0⟩)).trans rfl, (congrArg _ (hcount ⟨5⟩)).trans rfl,
    (hcount ⟨2⟩).trans rfl, herror, hfails _ herror⟩

end Population

end TangledPrograms
