import TangledPrograms.Program.Basic

/-!
# Mutation of programs

A pass deletes, changes, swaps and adds an instruction, each with its own probability. Passes are
repeated until one of them changes the program, as often as the settings allow; around that stands
either the search for a distinct program or a number of further passes.

A corpus holds inputs with the outputs that other learners gave on them. It tells apart the programs
whose output differs from every one of these by at least a threshold.
-/

namespace TangledPrograms

open Machine (Bank)

/-- Reference outputs, and how a candidate is run to be compared with them. -/
structure UniquenessCorpus where
  mode : Mode
  registers : RegisterSettings
  entries : List (Observation × Float)
  deriving DecidableEq

namespace UniquenessCorpus

def bank (c : UniquenessCorpus) : Bank := .zeros c.registers.sharedGroups c.registers.sharedSlots

def output (c : UniquenessCorpus) (p : Program) (input : Observation) : Float :=
  (p.execute c.mode input c.registers.count c.bank 0).1

def distinguishes (c : UniquenessCorpus) (p : Program) (threshold : Float) : Bool :=
  c.entries.all fun e => (e.2 - c.output p e.1).abs ≥ threshold

end UniquenessCorpus

/-- The probabilities of the four operators. -/
structure InstructionRates where
  delete : Float
  add : Float
  swap : Float
  change : Float

def InstructionRates.ofSettings (m : MutationSettings) : InstructionRates where
  delete := m.deleteInstruction.toFloat
  add := m.addInstruction.toFloat
  swap := m.swapInstruction.toFloat
  change := m.mutateInstruction.toFloat

/-- Instructions after an operator, and whether it changed anything. -/
structure Change where
  changed : Bool
  code : List Instruction
  deriving DecidableEq

namespace Program

/-- Deletes an instruction, unless it is the only one. -/
def deletePass (rate : Float) (code : List Instruction) : Draw Change :=
  if code.length ≤ 1 then pure ⟨false, code⟩
  else do
    if ← Draw.coin rate then
      pure ⟨true, code.eraseIdx (← Draw.below .word64 code.length)⟩
    else pure ⟨false, code⟩

def changeField (r : InstructionRanges) (code : List Instruction) : Draw Change := do
  let place ← Draw.below .word64 code.length
  match code[place]?, ← Draw.choose Field.all with
  | some i, some f =>
    match ← Draw.resampleDifferent (f.range r) (i.get f) with
    | some v => pure ⟨true, code.set place (i.set f v)⟩
    | none => pure ⟨false, code⟩
  | _, _ => pure ⟨false, code⟩

def changePass (rate : Float) (r : InstructionRanges) (code : List Instruction) : Draw Change := do
  if ← Draw.coin rate then changeField r code else pure ⟨false, code⟩

def exchange (code : List Instruction) (a b : Nat) : List Instruction :=
  match code[a]?, code[b]? with
  | some i, some j => (code.set a j).set b i
  | _, _ => code

/-- Exchanges two instructions, unless there is only one; equal ones are no change. -/
def swapPass (rate : Float) (code : List Instruction) : Draw Change :=
  if code.length ≤ 1 then pure ⟨false, code⟩
  else do
    if ← Draw.coin rate then
      let a ← Draw.below .word64 code.length
      let b := (a + (1 + (← Draw.below .word64 (code.length - 1)))) % code.length
      if code[a]? = code[b]? then pure ⟨false, code⟩ else pure ⟨true, exchange code a b⟩
    else pure ⟨false, code⟩

/-- Inserts a random instruction anywhere, unless the program has its full length. -/
def addPass (rate : Float) (r : InstructionRanges) (code : List Instruction) : Draw Change :=
  if r.maxLength ≤ code.length then pure ⟨false, code⟩
  else do
    if ← Draw.coin rate then
      let place ← Draw.below .word64 (code.length + 1)
      pure ⟨true, code.insertIdx place (← Instruction.random r)⟩
    else pure ⟨false, code⟩

def pass (rates : InstructionRates) (r : InstructionRanges) (code : List Instruction) :
    Draw Change := do
  let deleted ← deletePass rates.delete code
  let altered ← changePass rates.change r deleted.code
  let swapped ← swapPass rates.swap altered.code
  let added ← addPass rates.add r swapped.code
  pure ⟨deleted.changed || altered.changed || swapped.changed || added.changed, added.code⟩

/-- Passes until one of them changes the instructions, at most `attempts` of them. -/
def mutateInstructions (rates : InstructionRates) (r : InstructionRanges) :
    Nat → List Instruction → Draw Change
  | 0, code => pure ⟨false, code⟩
  | attempts + 1, code => do
    let c ← pass rates r code
    if c.changed then pure c else mutateInstructions rates r attempts c.code

end Program

/-- What the mutation of a program came to. -/
inductive ProgramMutation where
  /-- No operator changed the program. -/
  | unchanged
  /-- So many rounds of passes changed it. -/
  | mutated (passes : Nat)
  /-- The output is distinct from the corpus. -/
  | distinct (attempts : Nat)
  /-- No distinct output was found; the last attempt stays. -/
  | duplicate (attempts : Nat)
  deriving DecidableEq, Repr

def ProgramMutation.changed : ProgramMutation → Bool
  | .unchanged => false
  | _ => true

namespace Program

/-- Mutates up to `rounds` times until the output is distinct; `attempt` counts the rounds made and
`changed` tells whether one of them changed the program. -/
def seekDistinct (rates : InstructionRates) (r : InstructionRanges) (m : MutationSettings)
    (corpus : UniquenessCorpus) (changed : Bool) (attempt : Nat) :
    Nat → Program → Draw (ProgramMutation × Program)
  | 0, p => pure (if changed then .duplicate attempt else .unchanged, p)
  | rounds + 1, p => do
    let c ← mutateInstructions rates r m.maxChangeAttempts p.code
    let p' : Program := { p with code := c.code }
    if c.changed && corpus.distinguishes p' m.uniqueThreshold.toFloat then
      pure (.distinct (attempt + 1), p')
    else seekDistinct rates r m corpus (changed || c.changed) (attempt + 1) rounds p'

/-- Further passes while the coin shows them, at most `extra`; `passes` counts those that changed
the program. -/
def repeatPasses (rates : InstructionRates) (r : InstructionRanges) (m : MutationSettings)
    (passes : Nat) : Nat → List Instruction → Draw (Nat × List Instruction)
  | 0, code => pure (passes, code)
  | extra + 1, code => do
    if ← Draw.coin m.programRepeat.toFloat then
      let c ← mutateInstructions rates r m.maxChangeAttempts code
      repeatPasses rates r m (if c.changed then passes + 1 else passes) extra c.code
    else pure (passes, code)

/-- Mutates a program: with a corpus, until its output is distinct; without, by one pass and as many
further ones as the coin shows. -/
def mutate (p : Program) (m : MutationSettings) (r : InstructionRanges)
    (corpus : Option UniquenessCorpus) : Draw (ProgramMutation × Program) :=
  let rates := InstructionRates.ofSettings m
  match corpus with
  | some corpus => seekDistinct rates r m corpus false 0 (max m.maxUniqueAttempts 1) p
  | none => do
    let first ← mutateInstructions rates r m.maxChangeAttempts p.code
    let (passes, code) ←
      repeatPasses rates r m (if first.changed then 1 else 0) m.maxChangeAttempts first.code
    pure (if passes = 0 then .unchanged else .mutated passes, { p with code })

end Program

end TangledPrograms
