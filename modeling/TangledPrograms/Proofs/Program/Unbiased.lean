import TangledPrograms.Proofs.Program.Restoring
import TangledPrograms.Proofs.Random.Words

/-!
# Operators without bias

An exchange and a change of a field favour no target and waste no draw on something that would stay as
it is: places are exchanged with other places, fields get other values, and what an operator tells as a
change leaves other instructions.
-/

namespace TangledPrograms

open Draw

namespace Program

variable {code : List Instruction} {r : InstructionRanges}

/-- An exchange tells of a change if and only if there is one. -/
theorem exchanged_changed_iff {a b : ℕ} (ha : a < code.length) (hb : b < code.length) :
    (exchanged code a b).changed = true ↔ (exchanged code a b).code ≠ code := by
  have hi : code[a]? = some code[a] := List.getElem?_eq_getElem ha
  have hj : code[b]? = some code[b] := List.getElem?_eq_getElem hb
  rw [exchanged]
  split
  · exact iff_of_false Bool.false_ne_true fun h => h rfl
  · rename_i hdiffer
    rw [exchange, hi, hj]
    have hswaps : Swaps code ((code.set a code[b]).set b code[a]) := by
      refine ⟨a, b, code[a], code[b], hi, hj, fun heq => hdiffer ?_, rfl⟩
      rw [hi, hj, heq]
    obtain ⟨p, -, -, hne, -⟩ := hswaps.differs
    exact iff_of_true rfl fun heq => hne (congrArg (·[p]?) heq)

/-- What an exchange tells is so. -/
theorem ensures_swapPass_tells (rate : Float) (hlength : 1 < code.length)
    (hsize : code.length < UInt64.size) :
    (swapPass rate code).Ensures fun c => c.changed = true ↔ c.code ≠ code := by
  rw [swapPass_eq rate hlength]
  refine .after fun shown => ?_
  cases shown with
  | false => exact .pure (iff_of_false Bool.false_ne_true fun h => h rfl)
  | true =>
    refine (unbiased_swapTarget hlength hsize).spans.sound.bind fun t ht => ?_
    exact .pure (exchanged_changed_iff ht.1 ht.2.1)

/-- A change of a field is told if and only if a value was drawn for it. -/
theorem altered_changed_iff_some {t : ℕ × Option Field × Option UInt32} (ht : FieldTarget r code t) :
    (altered code t).changed = true ↔ t.2.2 ≠ none := by
  obtain ⟨i, f, hi, hf, -⟩ := ht
  simp only [altered, hi, hf]
  cases t.2.2 with
  | none => exact iff_of_false Bool.false_ne_true fun h => h rfl
  | some v => exact iff_of_true rfl (Option.some_ne_none v)

theorem altered_changed_iff {t : ℕ × Option Field × Option UInt32} (ht : FieldTarget r code t) :
    (altered code t).changed = true ↔ (altered code t).code ≠ code := by
  obtain ⟨i, f, hi, hf, hv⟩ := ht
  simp only [altered, hi, hf]
  cases h : t.2.2 with
  | none => exact iff_of_false Bool.false_ne_true fun h => h rfl
  | some v =>
    rw [h] at hv
    have halters : Alters r code (code.set t.1 (i.set f v)) := ⟨t.1, i, f, v, hi, hv.1, hv.2, rfl⟩
    obtain ⟨p, hne, -⟩ := halters.differs
    exact iff_of_true rfl fun heq => hne (congrArg (·[p]?) heq)

/-- What a change of a field tells is so. -/
theorem ensures_changeField_tells (hcode : code ≠ []) (hsize : code.length < UInt64.size) :
    (changeField r code).Ensures fun c => c.changed = true ↔ c.code ≠ code := by
  rw [changeField_eq]
  refine (unbiased_fieldTarget hcode hsize).spans.sound.bind fun t ht => ?_
  exact .pure (altered_changed_iff ht)

/-- A fair choice takes each member of its set for the same number of words. Resampling answers
nothing if and only if the range is zero or the current value is the only one below it; otherwise each
other value below the range comes from exactly one value of one bounded draw. So does each other place
from the step of an exchange. An exchange and a change of a field choose their targets by such draws
only, each target in one way, and tell of a change exactly if the instructions differ; those of a field
differ whenever there was a value to draw. -/
theorem targets_unbiased :
    (∀ (α : Type) (x : Draw α) (S : Set α), x.Fair S → ∀ a ∈ S, ∀ b ∈ S,
      {word : UInt64 | x.Answers [word] a}.ncard = {word : UInt64 | x.Answers [word] b}.ncard) ∧
    (∀ (range current : UInt32) (s : Source),
      (∃ s', resampleDifferent range current s = .ok (none, s')) ↔
        range = 0 ∨ ∀ v, v < range ↔ v = current) ∧
    (∀ range current : UInt32, ¬ (range = 0 ∨ ∀ v, v < range ↔ v = current) →
      (resampleDifferent range current).Fair (some '' {v | v < range ∧ v ≠ current})) ∧
    (∀ n a : ℕ, 1 < n → n < UInt64.size → a < n → (partner n a).Fair {b | b < n ∧ b ≠ a}) ∧
    (∀ (rate : Float) (code : List Instruction), 1 < code.length → code.length < UInt64.size →
      swapPass rate code = (do
        if ← coin rate then
          let t ← swapTarget code.length
          pure (exchanged code t.1 t.2)
        else pure ⟨false, code⟩) ∧
      (swapTarget code.length).Unbiased {t | t.1 < code.length ∧ t.2 < code.length ∧ t.2 ≠ t.1} ∧
      (swapPass rate code).Ensures fun c => c.changed = true ↔ c.code ≠ code) ∧
    ∀ (r : InstructionRanges) (code : List Instruction), code ≠ [] → code.length < UInt64.size →
      changeField r code = (do pure (altered code (← fieldTarget r code))) ∧
      (fieldTarget r code).Unbiased {t | FieldTarget r code t} ∧
      (∀ t, FieldTarget r code t → ((altered code t).changed = true ↔ t.2.2 ≠ none)) ∧
      (changeField r code).Ensures fun c => c.changed = true ↔ c.code ≠ code := by
  refine ⟨fun α x S h a ha b hb => ?_, fun range current s => ?_, fun range current h => ?_,
    fun n a hn hsize ha => ?_, ?_, ?_⟩
  · exact h.ncard_answers ha hb
  · rw [resampleDifferent_eq_none_iff, others_eq_empty_iff_only]
  · exact fair_resampleDifferent (mt others_eq_empty_iff_only.1 h)
  · exact fair_partner hn hsize ha
  · intro rate code hlength hsize
    exact ⟨swapPass_eq rate hlength, unbiased_swapTarget hlength hsize,
      ensures_swapPass_tells rate hlength hsize⟩
  · intro r code hcode hsize
    exact ⟨changeField_eq r code, unbiased_fieldTarget hcode hsize,
      fun t ht => altered_changed_iff_some ht, ensures_changeField_tells hcode hsize⟩

end Program

end TangledPrograms
