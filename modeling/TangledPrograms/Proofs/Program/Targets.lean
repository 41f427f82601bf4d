import TangledPrograms.Proofs.Program.Mutation

/-!
# The targets of an exchange and of a change

An exchange takes a place and goes on from it, around the instructions, by at least one step and by
less than a full turn, so it comes to each other place in one way. A change takes a place, a field and
another value for it. Both operators are a choice of such a target, which is fair in every part, and
what they then do to it.
-/

namespace TangledPrograms

open Draw

namespace Program

variable {code : List Instruction} {r : InstructionRanges}

/-- Two instructions exchanged, unless they are equal. -/
def exchanged (code : List Instruction) (a b : ℕ) : Change :=
  if code[a]? = code[b]? then ⟨false, code⟩ else ⟨true, exchange code a b⟩

/-- A step around passes the last place once at most. -/
theorem step_eq {n a x : ℕ} (ha : a < n) (hx : x < n - 1) :
    (a + (1 + x)) % n = if a + (1 + x) < n then a + (1 + x) else a + (1 + x) - n := by
  split
  · exact Nat.mod_eq_of_lt ‹_›
  · rw [Nat.mod_eq_sub_mod (by omega), Nat.mod_eq_of_lt (by omega)]

/-- A step from a place around goes to another one. -/
theorem other_place {n a x : ℕ} (ha : a < n) (hx : x < n - 1) :
    (a + (1 + x)) % n < n ∧ (a + (1 + x)) % n ≠ a := by
  refine ⟨Nat.mod_lt _ (by omega), ?_⟩
  rw [step_eq ha hx]
  split <;> omega

theorem exists_step {n a b : ℕ} (ha : a < n) (hb : b < n) (hab : a ≠ b) :
    ∃ x < n - 1, (a + (1 + x)) % n = b := by
  by_cases h : a < b
  · refine ⟨b - a - 1, by omega, ?_⟩
    rw [show a + (1 + (b - a - 1)) = b by omega, Nat.mod_eq_of_lt hb]
  · refine ⟨n - 1 - a + b, by omega, ?_⟩
    rw [show a + (1 + (n - 1 - a + b)) = n + b by omega, Nat.add_mod_left, Nat.mod_eq_of_lt hb]

/-- The second place of an exchange: some steps on from the first, around the instructions. -/
def partner (n a : ℕ) : Draw ℕ := do pure ((a + (1 + (← below .word64 (n - 1)))) % n)

/-- Each other place is so many steps away, in one way. -/
theorem bijOn_step {n a : ℕ} (ha : a < n) :
    Set.BijOn (fun x => (a + (1 + x)) % n) (Set.Iio (n - 1)) {b | b < n ∧ b ≠ a} := by
  refine ⟨fun x hx => other_place ha hx, fun x hx y hy hxy => ?_, fun b hb => ?_⟩
  · simp only [Set.mem_Iio] at hx hy hxy
    rw [step_eq ha hx, step_eq ha hy] at hxy
    split at hxy <;> split at hxy <;> omega
  · obtain ⟨x, hx, hstep⟩ := exists_step ha hb.1 (Ne.symm hb.2)
    exact ⟨x, hx, hstep⟩

theorem fair_partner {n a : ℕ} (hn : 1 < n) (hsize : n < UInt64.size) (ha : a < n) :
    (partner n a).Fair {b | b < n ∧ b ≠ a} :=
  .drawn (w := .word64) (by omega) (by change _ < UInt64.size; omega) (bijOn_step ha)

/-- The places that an exchange is tried on. -/
def swapTarget (n : ℕ) : Draw (ℕ × ℕ) := do
  let a ← below .word64 n
  let b ← partner n a
  pure (a, b)

theorem unbiased_swapTarget {n : ℕ} (hn : 1 < n) (hsize : n < UInt64.size) :
    (swapTarget n).Unbiased {t | t.1 < n ∧ t.2 < n ∧ t.2 ≠ t.1} :=
  (fair_below (w := .word64) (by omega) hsize).pair fun _ ha => .fair (fair_partner hn hsize ha)

theorem swapPass_eq (rate : Float) (hlength : 1 < code.length) :
    swapPass rate code = (do
      if ← coin rate then
        let t ← swapTarget code.length
        pure (exchanged code t.1 t.2)
      else pure ⟨false, code⟩) := by
  rw [swapPass, if_neg (by omega)]
  congr 1
  funext shown
  cases shown with
  | false => rfl
  | true =>
    simp only [if_true, swapTarget, partner, bind_assoc, pure_bind]
    congr 1
    funext a
    congr 1
    funext x
    simp only [exchanged]
    split <;> rfl

/-- The value for a field of an instruction: another one below its range, if there is one. -/
def newValue (r : InstructionRanges) : Option Instruction → Option Field → Draw (Option UInt32)
  | some i, some f => resampleDifferent (f.range r) (i.get f)
  | _, _ => pure none

/-- The field that a change is tried on, with the place of its instruction and the new value. -/
def fieldTarget (r : InstructionRanges) (code : List Instruction) :
    Draw (ℕ × Option Field × Option UInt32) := do
  let place ← below .word64 code.length
  let t ← (do
    let f ← choose Field.all
    let v ← newValue r code[place]? f
    pure (f, v))
  pure (place, t)

/-- A field of an instruction with another value below its range, or with none if there is none. -/
def FieldTarget (r : InstructionRanges) (code : List Instruction)
    (t : ℕ × Option Field × Option UInt32) : Prop :=
  ∃ i f, code[t.1]? = some i ∧ t.2.1 = some f ∧ Resampled (f.range r) (i.get f) t.2.2

theorem unbiased_fieldTarget (hcode : code ≠ []) (hsize : code.length < UInt64.size) :
    (fieldTarget r code).Unbiased {t | FieldTarget r code t} := by
  have hvalue : ∀ place < code.length, ∀ f ∈ some '' {f | f ∈ Field.all},
      (newValue r code[place]? f).Unbiased {v | FieldTarget r code (place, f, v)} := by
    rintro place hplace _ ⟨f, -, rfl⟩
    have hi : code[place]? = some code[place] := List.getElem?_eq_getElem hplace
    have hset : {v | FieldTarget r code (place, some f, v)} =
        {v | Resampled (f.range r) (code[place].get f) v} := by
      ext v
      constructor
      · rintro ⟨i, g, hplaced, hg, hv⟩
        cases hi.symm.trans hplaced
        cases hg
        exact hv
      · exact fun hv => ⟨_, f, hi, rfl, hv⟩
    rw [hi, hset]
    exact .fair (fair_resampled _ _)
  have hfields := fair_choose (l := Field.all) (by decide) (by decide) (by decide)
  have hall := (fair_below (w := .word64) (mt List.length_eq_zero_iff.1 hcode) hsize).pair
    fun place hplace => hfields.pair (hvalue place hplace)
  refine (congrArg (Unbiased _) ?_).mp hall
  ext t
  constructor
  · rintro ⟨-, -, ht⟩
    exact ht
  · rintro ⟨i, f, hi, hf, hv⟩
    have hplace := (List.getElem?_eq_some_iff.1 hi).1
    exact ⟨hplace, ⟨f, by cases f <;> decide, hf.symm⟩, i, f, hi, hf, hv⟩

def altered (code : List Instruction) (t : ℕ × Option Field × Option UInt32) : Change :=
  match code[t.1]?, t.2.1, t.2.2 with
  | some i, some f, some v => ⟨true, code.set t.1 (i.set f v)⟩
  | _, _, _ => ⟨false, code⟩

theorem changeField_eq (r : InstructionRanges) (code : List Instruction) :
    changeField r code = (do pure (altered code (← fieldTarget r code))) := by
  simp only [changeField, fieldTarget, bind_assoc, pure_bind]
  congr 1
  funext place
  congr 1
  funext f
  simp only [altered]
  cases code[place]? with
  | none => rfl
  | some i =>
    cases f with
    | none => rfl
    | some f =>
      simp only [newValue]
      congr 1
      funext v
      cases v <;> rfl

end Program

end TangledPrograms
