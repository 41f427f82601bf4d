import Mathlib.Logic.Relation
import TangledPrograms.Proofs.Program.Passes

/-!
# What mutation leaves of a program

A call makes at most one edit of each kind, one after the other: it ends with the first pass that makes
any. So a program gains or loses one instruction at most, never its last one, and never grows beyond the
allowed length; an instruction comes from one of the program before, or anew, and a field that is out of
range comes from the program before. These facts outlast any number of calls, and they keep programs
within bounds.
-/

namespace TangledPrograms

open Draw
open Relation (ReflGen)

/-- Each field is that of `j`, or below its range, where a range of zero counts as one. -/
def Instruction.Inherits (r : InstructionRanges) (j i : Instruction) : Prop :=
  ∀ f, i.get f = j.get f ∨ i.get f < max (f.range r) 1

namespace Instruction

variable {r : InstructionRanges} {i j k : Instruction}

theorem Inherits.refl (i : Instruction) : Inherits r i i := fun _ => .inl rfl

theorem Inherits.trans (hj : Inherits r k j) (hi : Inherits r j i) : Inherits r k i := by
  intro f
  obtain h | h := hi f
  · rw [h]
    exact hj f
  · exact .inr h

theorem Inherits.set (i : Instruction) {f : Field} {v : UInt32} (hv : v < f.range r) :
    Inherits r i (i.set f v) := by
  intro g
  by_cases hg : g = f
  · subst hg
    right
    rw [get_set_self, UInt32.lt_iff_toNat_lt, toNat_max_one]
    exact (UInt32.lt_iff_toNat_lt.1 hv).trans_le (Nat.le_max_left ..)
  · exact .inl (get_set_of_ne i v hg)

end Instruction

namespace Program

/-- An instruction is gone, and it was not the only one. -/
def Shortens (code next : List Instruction) : Prop := 1 < code.length ∧ Deletes code next

/-- A random instruction has come in, and there was room for it. -/
def Extends (r : InstructionRanges) (code next : List Instruction) : Prop :=
  code.length < r.maxLength ∧ Inserts r code next

/-- At most one edit of each kind has been made, one after the other. -/
inductive Edits (r : InstructionRanges) (code next : List Instruction) : Prop where
  | inOrder {deleted altered swapped : List Instruction} (hdelete : ReflGen Shortens code deleted)
    (halter : ReflGen (Alters r) deleted altered) (hswap : ReflGen Swaps altered swapped)
    (hinsert : ReflGen (Extends r) swapped next) : Edits r code next

/-- A program that mutation may have made of another one. -/
structure Descends (r : InstructionRanges) (code next : List Instruction) : Prop where
  ne_nil : next ≠ []
  length_le : next.length ≤ max code.length r.maxLength
  /-- A field that is not below its range is that of an instruction of the program before. -/
  inherits : ∀ i ∈ next, ∃ j ∈ code, Instruction.Inherits r j i

section descent

variable {r : InstructionRanges} {code next last : List Instruction}

theorem Descends.refl (hcode : code ≠ []) : Descends r code code where
  ne_nil := hcode
  length_le := Nat.le_max_left ..
  inherits i hi := ⟨i, hi, .refl i⟩

theorem Descends.trans (h : Descends r code next) (h' : Descends r next last) :
    Descends r code last where
  ne_nil := h'.ne_nil
  length_le := h'.length_le.trans (max_le h.length_le (Nat.le_max_right ..))
  inherits i hi := by
    obtain ⟨j, hj, hij⟩ := h'.inherits i hi
    obtain ⟨k, hk, hjk⟩ := h.inherits j hj
    exact ⟨k, hk, hjk.trans hij⟩

/-- What leaves the length as it is and takes every instruction from one before. -/
private theorem Descends.of_length_eq (hcode : code ≠ []) (hlength : next.length = code.length)
    (hinherits : ∀ i ∈ next, ∃ j ∈ code, Instruction.Inherits r j i) : Descends r code next where
  ne_nil := List.ne_nil_of_length_pos (hlength ▸ List.length_pos_of_ne_nil hcode)
  length_le := hlength ▸ Nat.le_max_left ..
  inherits := hinherits

theorem Shortens.descends (h : Shortens code next) : Descends r code next := by
  obtain ⟨hmany, hdeletes⟩ := h
  have hlength := hdeletes.length
  obtain ⟨place, -, rfl⟩ := hdeletes
  refine ⟨List.ne_nil_of_length_pos (by omega), ?_, fun i hi => ?_⟩
  · exact (by omega : _ ≤ code.length).trans (Nat.le_max_left ..)
  · exact ⟨i, List.mem_of_mem_eraseIdx hi, .refl i⟩

theorem Alters.descends (hcode : code ≠ []) (h : Alters r code next) : Descends r code next := by
  refine .of_length_eq hcode h.length ?_
  obtain ⟨place, i, f, v, hi, hv, -, rfl⟩ := h
  intro j hj
  obtain hj | rfl := List.mem_or_eq_of_mem_set hj
  · exact ⟨j, hj, .refl j⟩
  · exact ⟨i, List.mem_of_getElem? hi, .set i hv⟩

theorem Swaps.descends (hcode : code ≠ []) (h : Swaps code next) : Descends r code next := by
  refine .of_length_eq hcode h.length ?_
  obtain ⟨a, b, i, j, hi, hj, -, rfl⟩ := h
  intro k hk
  refine ⟨k, ?_, .refl k⟩
  obtain hk | rfl := List.mem_or_eq_of_mem_set hk
  · obtain hk | rfl := List.mem_or_eq_of_mem_set hk
    · exact hk
    · exact List.mem_of_getElem? hj
  · exact List.mem_of_getElem? hi

theorem Extends.descends (hcode : code ≠ []) (h : Extends r code next) : Descends r code next := by
  obtain ⟨hroom, hinserts⟩ := h
  have hlength := hinserts.length
  obtain ⟨place, hplace, i, hi, rfl⟩ := hinserts
  refine ⟨List.ne_nil_of_length_pos (by omega), ?_, fun j hj => ?_⟩
  · exact (by omega : _ ≤ r.maxLength).trans (Nat.le_max_right ..)
  · obtain rfl | hj := (List.mem_insertIdx hplace).1 hj
    · -- a new instruction is in range, so it may be counted as made of any
      exact ⟨code.head hcode, List.head_mem hcode, fun f => .inr (hi f)⟩
    · exact ⟨j, hj, .refl j⟩

/-- What descends by an edit descends also where the edit may be left out. -/
private theorem descends_of_reflGen {edits : List Instruction → List Instruction → Prop}
    (hedits : edits code next → Descends r code next) (hcode : code ≠ [])
    (h : ReflGen edits code next) : Descends r code next := by
  cases h with
  | refl => exact .refl hcode
  | single h => exact hedits h

theorem Edits.descends (hcode : code ≠ []) (h : Edits r code next) : Descends r code next := by
  obtain ⟨hdelete, halter, hswap, hinsert⟩ := h
  have hdeleted : Descends r code _ := descends_of_reflGen Shortens.descends hcode hdelete
  have haltered := descends_of_reflGen (Alters.descends hdeleted.ne_nil) hdeleted.ne_nil halter
  have hswapped :=
    descends_of_reflGen (Swaps.descends (r := r) haltered.ne_nil) haltered.ne_nil hswap
  have hinserted := descends_of_reflGen (Extends.descends hswapped.ne_nil) hswapped.ne_nil hinsert
  exact ((hdeleted.trans haltered).trans hswapped).trans hinserted

/-- Only the deletion and the insertion move the length, by one each. -/
theorem Edits.length_near (h : Edits r code next) :
    next.length ≤ code.length + 1 ∧ code.length ≤ next.length + 1 := by
  obtain ⟨hdelete, halter, hswap, hinsert⟩ := h
  rename_i deleted altered swapped
  have hdeleted : deleted.length ≤ code.length ∧ code.length ≤ deleted.length + 1 := by
    cases hdelete with
    | refl => omega
    | single h =>
      have hlength := h.2.length
      omega
  have haltered : altered.length = deleted.length := by
    cases halter with
    | refl => rfl
    | single h => exact h.length
  have hswapped : swapped.length = altered.length := by
    cases hswap with
    | refl => rfl
    | single h => exact h.length
  have hinserted : next.length ≤ swapped.length + 1 ∧ swapped.length ≤ next.length := by
    cases hinsert with
    | refl => omega
    | single h =>
      have hlength := h.2.length
      omega
  omega

end descent

section operators

variable {r : InstructionRanges} {code : List Instruction}

theorem ensures_deletePass (rate : Float) (code : List Instruction) :
    (deletePass rate code).Ensures fun c => ReflGen Shortens code c.code := by
  rw [deletePass]
  split
  · exact .pure .refl
  · refine .after fun shown => ?_
    cases shown with
    | false => exact .pure .refl
    | true =>
      refine (ensures_below _ _).bind fun place hplace => .pure (.single ⟨?_, place, hplace, rfl⟩)
      exact Nat.not_le.1 ‹_›

theorem ensures_changeField (r : InstructionRanges) (code : List Instruction) :
    (changeField r code).Ensures fun c => ReflGen (Alters r) code c.code := by
  refine .after fun place => .after fun field => ?_
  split
  · rename_i i f hi
    refine (yields_resampleDifferent _ _).ensures.bind fun o ho => ?_
    cases o with
    | none => exact .pure .refl
    | some v =>
      obtain ⟨hv, hne⟩ := ho v rfl
      exact .pure (.single ⟨place, i, f, v, hi, hv, hne, rfl⟩)
  · exact .pure .refl

theorem ensures_changePass (rate : Float) (r : InstructionRanges) (code : List Instruction) :
    (changePass rate r code).Ensures fun c => ReflGen (Alters r) code c.code := by
  refine .after fun shown => ?_
  cases shown with
  | false => exact .pure .refl
  | true => exact ensures_changeField r code

theorem ensures_swapPass (rate : Float) (code : List Instruction) :
    (swapPass rate code).Ensures fun c => ReflGen Swaps code c.code := by
  rw [swapPass]
  split
  · exact .pure .refl
  · refine .after fun shown => ?_
    cases shown with
    | false => exact .pure .refl
    | true =>
      refine (ensures_below _ _).bind fun a ha => .after fun step => ?_
      have hb : (a + (1 + step)) % code.length < code.length := Nat.mod_lt _ (by omega)
      dsimp only
      generalize (a + (1 + step)) % code.length = b at hb
      have hi : code[a]? = some code[a] := List.getElem?_eq_getElem ha
      have hj : code[b]? = some code[b] := List.getElem?_eq_getElem hb
      rw [exchange, hi, hj]
      split
      · exact .pure .refl
      · rename_i hdiffer
        exact .pure (.single ⟨a, b, _, _, hi, hj, mt (congrArg some) hdiffer, rfl⟩)

theorem ensures_addPass (rate : Float) (r : InstructionRanges) (code : List Instruction) :
    (addPass rate r code).Ensures fun c => ReflGen (Extends r) code c.code := by
  rw [addPass]
  split
  · exact .pure .refl
  · refine .after fun shown => ?_
    cases shown with
    | false => exact .pure .refl
    | true =>
      refine (ensures_below _ _).bind fun place hplace => ?_
      refine (Instruction.spans_random r).sound.bind fun i hi => .pure (.single ?_)
      exact ⟨Nat.not_le.1 ‹_›, place, Nat.le_of_lt_succ hplace, i, hi, rfl⟩

end operators

section calls

variable {rates : InstructionRates} {r : InstructionRanges} {code : List Instruction}

theorem ensures_pass : (pass rates r code).Ensures fun c => Edits r code c.code := by
  refine (ensures_deletePass _ _).bind fun deleted hdelete => ?_
  refine (ensures_changePass _ _ _).bind fun altered halter => ?_
  refine (ensures_swapPass _ _).bind fun swapped hswap => ?_
  refine (ensures_addPass _ _ _).bind fun inserted hinsert => ?_
  exact .pure (.inOrder hdelete halter hswap hinsert)

/-- A pass that tells of no change has made none, so the last pass starts from the given program. -/
theorem ensures_mutateInstructions (attempts : ℕ) :
    (mutateInstructions rates r attempts code).Ensures fun c => Edits r code c.code := by
  induction attempts with
  | zero => exact .pure (.inOrder .refl .refl .refl .refl)
  | succ attempts ih =>
    have hpass : (pass rates r code).Meets (fun _ => True) (Change.Of code) :=
      meets_pass trivial fun _ => trivial
    refine (hpass.and_ensures ensures_pass).ensures.bind fun c ⟨hc, hedits⟩ => ?_
    split
    · exact .pure hedits
    · rename_i hchanged
      rw [hc.same (Bool.eq_false_iff.2 hchanged)]
      exact ih

end calls

section mutate

variable {rates : InstructionRates} {r : InstructionRanges} {m : MutationSettings}
  {code : List Instruction}

theorem ensures_seekDistinct (corpus : UniquenessCorpus) (rounds : ℕ) :
    ∀ {changed : Bool} {attempt : ℕ} {p : Program}, Descends r code p.code →
      (seekDistinct rates r m corpus changed attempt rounds p).Ensures fun o =>
        Descends r code o.2.code := by
  induction rounds with
  | zero => exact fun h => .pure h
  | succ rounds ih =>
    intro changed attempt p h
    refine (ensures_mutateInstructions _).bind fun c hc => ?_
    have hnext := h.trans (hc.descends h.ne_nil)
    dsimp only
    split
    · exact .pure hnext
    · exact ih hnext

theorem ensures_repeatPasses (extra : ℕ) : ∀ {passes : ℕ} {next : List Instruction},
    Descends r code next →
      (repeatPasses rates r m passes extra next).Ensures fun o => Descends r code o.2 := by
  induction extra with
  | zero => exact fun h => .pure h
  | succ extra ih =>
    intro passes next h
    refine .after fun shown => ?_
    cases shown with
    | false => exact .pure h
    | true =>
      exact (ensures_mutateInstructions _).bind fun c hc => ih (h.trans (hc.descends h.ne_nil))

/-- However many calls a mutation makes, what it leaves descends from the program before. -/
theorem ensures_mutate_descends {p : Program} (hcode : p.code ≠ []) (m : MutationSettings)
    (r : InstructionRanges) (corpus : Option UniquenessCorpus) :
    (p.mutate m r corpus).Ensures fun o => Descends r p.code o.2.code := by
  cases corpus with
  | some corpus => exact ensures_seekDistinct corpus _ (.refl hcode)
  | none =>
    refine (ensures_mutateInstructions _).bind fun first hfirst => ?_
    exact (ensures_repeatPasses _ (hfirst.descends hcode)).bind fun o ho => .pure ho

theorem Descends.bounded {next : List Instruction} (hr : r.Positive) (h : Bounded r code)
    (hnext : Descends r code next) : Bounded r next where
  length_pos := List.length_pos_of_ne_nil hnext.ne_nil
  length_le := hnext.length_le.trans (max_le h.length_le le_rfl)
  inRange i hi f := by
    obtain ⟨j, hj, hij⟩ := hnext.inherits i hi
    obtain hsame | hlt := hij f
    · rw [hsame]
      exact h.inRange j hj f
    · rwa [hr.max_range] at hlt

/-- Mutation keeps a program within bounds, with a corpus and without. -/
theorem ensures_mutate {p : Program} (hr : r.Positive) (h : Bounded r p.code) (m : MutationSettings)
    (corpus : Option UniquenessCorpus) :
    (p.mutate m r corpus).Ensures fun o => Bounded r o.2.code :=
  (ensures_mutate_descends (List.ne_nil_of_length_pos h.length_pos) m r corpus).mono fun _ ho =>
    ho.bounded hr h

end mutate

/-- On a program with an instruction, calls and mutations fail only for want of words, and some words
bring each of them to an end. Whatever the ranges, the rates and the number of attempts, one call makes
at most one edit of each kind and moves the length by one at most. What it leaves descends from the
program, and so does what a mutation leaves, with a corpus and without. -/
theorem mutation_descends {code : List Instruction} (hcode : code ≠ []) (r : InstructionRanges) :
    (∀ (rates : InstructionRates) (attempts : ℕ),
      (mutateInstructions rates r attempts code).CanAnswer ∧
      (mutateInstructions rates r attempts code).Meets (· = .starved) fun c =>
        Edits r code c.code ∧ Descends r code c.code ∧
          c.code.length ≤ code.length + 1 ∧ code.length ≤ c.code.length + 1) ∧
    ∀ (id : ProgramId) (m : MutationSettings) (corpus : Option UniquenessCorpus),
      (mutate ⟨id, code⟩ m r corpus).CanAnswer ∧
      (mutate ⟨id, code⟩ m r corpus).Meets (· = .starved) fun o => Descends r code o.2.code := by
  constructor
  · intro rates attempts
    refine ⟨canAnswer_mutateInstructions hcode attempts, ?_⟩
    have hcall : (mutateInstructions rates r attempts code).Meets (· = .starved) (Change.Of code) :=
      meets_mutateInstructions (by rfl) (fun h => absurd h hcode) attempts
    exact (hcall.and_ensures (ensures_mutateInstructions attempts)).mono fun c ⟨_, hedits⟩ =>
      ⟨hedits, hedits.descends hcode, hedits.length_near⟩
  · intro id m corpus
    let p : Program := ⟨id, code⟩
    refine ⟨canAnswer_mutate (p := p) hcode m r corpus, ?_⟩
    have hmutate : (p.mutate m r corpus).Meets (· = .starved) (Outcome m corpus p) :=
      meets_mutate (by rfl) (fun h => absurd h hcode) m r corpus
    exact (hmutate.and_ensures (ensures_mutate_descends hcode m r corpus)).mono fun o ⟨_, ho⟩ => ho

/-- Two instructions where there is room for one only, with fields that no range admits. -/
theorem mutation_descends_outlying :
    let code : List Instruction := [⟨0, 0, 0, 5, 0, 0⟩, ⟨7, 0, 0, 6, 0, 9⟩]
    let r : InstructionRanges := ⟨0, 0, 0, 1⟩
    code ≠ [] ∧
      ((mutateInstructions ⟨1.0, 1.0, 1.0, 1.0⟩ r 3 code).Meets (· = .starved) fun c =>
        Edits r code c.code ∧ Descends r code c.code ∧
          c.code.length ≤ code.length + 1 ∧ code.length ≤ c.code.length + 1) ∧
      (mutate ⟨⟨0⟩, code⟩ {} r none).Meets (· = .starved) fun o => Descends r code o.2.code := by
  intro code r
  have hcode : code ≠ [] := List.cons_ne_nil _ _
  obtain ⟨hcall, hmutate⟩ := mutation_descends hcode r
  exact ⟨hcode, (hcall ⟨1.0, 1.0, 1.0, 1.0⟩ 3).2, (hmutate ⟨0⟩ {} none).2⟩

end Program

end TangledPrograms
