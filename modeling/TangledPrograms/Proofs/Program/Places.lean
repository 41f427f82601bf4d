import TangledPrograms.Population.ActionMutation
import TangledPrograms.Program.Mutation
import TangledPrograms.Proofs.Random.Chance

/-!
# Drawn places are there

Once more the operators that change an instruction or a coordinate at a drawn place. Here the place is
checked before it is used, and what is done where there is no such place is left open. Whatever it is,
the operators are the same, for every place that is drawn is there.
-/

namespace TangledPrograms

open Draw

/-- Computations are the same if they go on alike with every answer that can be given. -/
theorem Draw.Ensures.bind_congr {α β : Type} {x : Draw α} {P : α → Prop} {f g : α → Draw β}
    (hx : x.Ensures P) (h : ∀ a, P a → f a = g a) : x >>= f = x >>= g := by
  funext s
  rw [bind_apply, bind_apply]
  cases hxs : x s with
  | error e => rfl
  | ok r => exact congrFun (h r.1 (hx s r.1 r.2 hxs)) r.2

namespace Program.Guarded

variable (lost : Draw Change)

/-- Deletes an instruction, unless it is the only one. -/
def deletePass (rate : Float) (code : List Instruction) : Draw Change :=
  if code.length ≤ 1 then pure ⟨false, code⟩
  else do
    if ← coin rate then
      let place ← below .word64 code.length
      if place < code.length then pure ⟨true, code.eraseIdx place⟩ else lost
    else pure ⟨false, code⟩

def changeField (r : InstructionRanges) (code : List Instruction) : Draw Change := do
  let place ← below .word64 code.length
  match ← choose Field.all with
  | none => pure ⟨false, code⟩
  | some f =>
    if h : place < code.length then
      match ← resampleDifferent (f.range r) (code[place].get f) with
      | some v => pure ⟨true, code.set place (code[place].set f v)⟩
      | none => pure ⟨false, code⟩
    else lost

def changePass (rate : Float) (r : InstructionRanges) (code : List Instruction) : Draw Change := do
  if ← coin rate then changeField lost r code else pure ⟨false, code⟩

/-- Exchanges two instructions, unless there is only one; equal ones are no change. -/
def swapPass (rate : Float) (code : List Instruction) : Draw Change :=
  if code.length ≤ 1 then pure ⟨false, code⟩
  else do
    if ← coin rate then
      let a ← below .word64 code.length
      let b := (a + (1 + (← below .word64 (code.length - 1)))) % code.length
      if h : a < code.length ∧ b < code.length then
        if code[a] = code[b] then pure ⟨false, code⟩
        else pure ⟨true, (code.set a code[b]).set b code[a]⟩
      else lost
    else pure ⟨false, code⟩

/-- Inserts a random instruction at a place or behind the last one, unless the program has its full
length. -/
def addPass (rate : Float) (r : InstructionRanges) (code : List Instruction) : Draw Change :=
  if r.maxLength ≤ code.length then pure ⟨false, code⟩
  else do
    if ← coin rate then
      let place ← below .word64 (code.length + 1)
      let i ← Instruction.random r
      if place ≤ code.length then pure ⟨true, code.insertIdx place i⟩ else lost
    else pure ⟨false, code⟩

def pass (rates : InstructionRates) (r : InstructionRanges) (code : List Instruction) :
    Draw Change := do
  let deleted ← deletePass lost rates.delete code
  let altered ← changePass lost rates.change r deleted.code
  let swapped ← swapPass lost rates.swap altered.code
  let added ← addPass lost rates.add r swapped.code
  pure ⟨deleted.changed || altered.changed || swapped.changed || added.changed, added.code⟩

theorem deletePass_eq (rate : Float) (code : List Instruction) :
    deletePass lost rate code = Program.deletePass rate code := by
  rw [deletePass, Program.deletePass]
  split
  · rfl
  · refine ensures_true.bind_congr fun shown _ => ?_
    cases shown with
    | false => rfl
    | true => exact (ensures_below _ _).bind_congr fun place hplace => if_pos hplace

theorem changeField_eq (r : InstructionRanges) (code : List Instruction) :
    changeField lost r code = Program.changeField r code := by
  refine (ensures_below _ _).bind_congr fun place hplace => ?_
  refine ensures_true.bind_congr fun field _ => ?_
  rw [List.getElem?_eq_getElem hplace]
  cases field with
  | none => rfl
  | some f => exact dif_pos hplace

theorem changePass_eq (rate : Float) (r : InstructionRanges) (code : List Instruction) :
    changePass lost rate r code = Program.changePass rate r code := by
  rw [changePass, Program.changePass, changeField_eq]

theorem swapPass_eq (rate : Float) (code : List Instruction) :
    swapPass lost rate code = Program.swapPass rate code := by
  rw [swapPass, Program.swapPass]
  split
  · rfl
  · refine ensures_true.bind_congr fun shown _ => ?_
    cases shown with
    | false => rfl
    | true =>
      refine (ensures_below _ _).bind_congr fun a ha => ?_
      refine ensures_true.bind_congr fun c _ => ?_
      have hb : (a + (1 + c)) % code.length < code.length := Nat.mod_lt _ (by omega)
      dsimp only
      rw [dif_pos ⟨ha, hb⟩, exchange, List.getElem?_eq_getElem ha, List.getElem?_eq_getElem hb]
      simp only [Option.some.injEq]

theorem addPass_eq (rate : Float) (r : InstructionRanges) (code : List Instruction) :
    addPass lost rate r code = Program.addPass rate r code := by
  rw [addPass, Program.addPass]
  split
  · rfl
  · refine ensures_true.bind_congr fun shown _ => ?_
    cases shown with
    | false => rfl
    | true =>
      refine (ensures_below _ _).bind_congr fun place hplace => ?_
      exact ensures_true.bind_congr fun i _ => if_pos (Nat.le_of_lt_succ hplace)

/-- A pass uses no place that is not there. -/
theorem pass_eq (rates : InstructionRates) (r : InstructionRanges) (code : List Instruction) :
    pass lost rates r code = Program.pass rates r code := by
  simp only [pass, Program.pass, deletePass_eq, changePass_eq, swapPass_eq, addPass_eq]

end Program.Guarded

namespace ActionMutation.Guarded

variable (lost : Draw (List Binary64))

def nudge (m : MutationSettings) (v : List Binary64) : Draw (List Binary64) := do
  let place ← below .word64 v.length
  let noise ← Normal.deviate m.vectorNoise.toFloat
  if h : place < v.length then pure (v.set place (v[place].add noise).clampUnit) else lost

/-- A move uses no coordinate that is not there. -/
theorem nudge_eq (m : MutationSettings) (v : List Binary64) :
    nudge lost m v = ActionMutation.nudge m v := by
  refine (ensures_below _ _).bind_congr fun place hplace => ?_
  refine ensures_true.bind_congr fun noise _ => ?_
  rw [dif_pos hplace, List.modify_eq_set_getElem?, List.getElem?_eq_getElem hplace]
  rfl

end ActionMutation.Guarded

end TangledPrograms
