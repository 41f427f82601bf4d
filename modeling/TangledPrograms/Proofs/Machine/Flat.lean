import TangledPrograms.Machine.Scalar
import TangledPrograms.Machine.Vector

/-!
# The machine on flat memory

Both modes once more, now on plain arrays: a grid is one array of all its numbers, row by row, and a
place in it is computed from sizes and indices. Every access, division and difference is checked, so
that a run which is not safe ends with a `Fault`. Writes to the bank are recorded.
-/

namespace TangledPrograms.Machine.Flat

/-- Why a step on flat memory cannot be made. -/
inductive Fault where
  /-- A place beyond the end of an array, or a piece that does not fit. -/
  | outOfRange
  | zeroDivisor
  /-- A difference below zero. -/
  | underflow
  deriving DecidableEq, Repr

abbrev Checked := Except Fault

def remainder (a b : Nat) : Checked Nat := if b = 0 then .error .zeroDivisor else .ok (a % b)

def quotient (a b : Nat) : Checked Nat := if b = 0 then .error .zeroDivisor else .ok (a / b)

def difference (a b : Nat) : Checked Nat := if a < b then .error .underflow else .ok (a - b)

def read (xs : Array Float) (i : Nat) : Checked Float :=
  if h : i < xs.size then .ok xs[i] else .error .outOfRange

def write (xs : Array Float) (i : Nat) (x : Float) : Checked (Array Float) :=
  if h : i < xs.size then .ok (xs.set i x h) else .error .outOfRange

/-- The numbers from place `start` up to place `stop`. -/
def part (xs : Array Float) (start stop : Nat) : Checked (Array Float) :=
  if start ≤ stop ∧ stop ≤ xs.size then .ok (xs.extract start stop) else .error .outOfRange

/-- Rows of equal width, one after the other in one array. -/
structure Block where
  height : Nat
  width : Nat
  values : Array Float

namespace Block

def offset (b : Block) (i j : Nat) : Checked Nat := do
  pure ((← remainder i b.height) * b.width + (← remainder j b.width))

def row (b : Block) (i : Nat) : Checked (Array Float) := do
  let start := (← remainder i b.height) * b.width
  part b.values start (start + b.width)

/-- Replaces every number of a row by a function of its column and of itself. -/
def mapRow (b : Block) (i : Nat) (f : Nat → Float → Float) : Checked Block := do
  let start := (← remainder i b.height) * b.width
  let _ ← part b.values start (start + b.width)
  pure { b with
    values := b.values.mapIdx fun k x =>
      if start ≤ k ∧ k < start + b.width then f (k - start) x else x }

def set (b : Block) (k : Nat) (x : Float) : Checked Block := do
  pure { b with values := ← write b.values k x }

/-- The same block filled with zeros. -/
def reset (b : Block) : Block := { b with values := b.values.map fun _ => 0.0 }

end Block

namespace Scalar

/-- Registers, the bank, and the places of the bank that have been written. -/
structure Memory where
  registers : Array Float
  bank : Block
  written : List Nat

/-- An element of the input, its index wrapped; zero if there is no input. -/
def readInput (input : Array Float) (i : Nat) : Checked Float := do
  if input.isEmpty then pure 0.0 else read input (← remainder i input.size)

def source (input : Array Float) (group : Nat) (m : Memory) (i : Instruction) : Checked Float := do
  if i.readsInput then readInput input i.source.toNat
  else if i.readsShared then read m.bank.values (← m.bank.offset group i.source.toNat)
  else read m.registers (← remainder i.source.toNat m.registers.size)

def step (input : Array Float) (group : Nat) (m : Memory) (i : Instruction) : Checked Memory := do
  let y ← source input group m i
  if i.writesShared then
    let k ← m.bank.offset group i.dest.toNat
    match Machine.Scalar.apply (.ofCode i.opcode) (← read m.bank.values k) y with
    | none => pure m
    | some x => pure { m with bank := ← m.bank.set k (normalize x), written := k :: m.written }
  else
    let k ← remainder i.dest.toNat m.registers.size
    match Machine.Scalar.apply (.ofCode i.opcode) (← read m.registers k) y with
    | none => pure m
    | some x => pure { m with registers := ← write m.registers k (normalize x) }

/-- Runs instructions on registers whose contents are cleared first; without registers nothing
happens and the answer is zero. -/
def execute (input registers : Array Float) (code : List Instruction) (bank : Block)
    (group : Nat) : Checked (Float × Memory) := do
  if registers.isEmpty then pure (0.0, ⟨registers, bank, []⟩)
  else
    let m ← code.foldlM (step input group) ⟨registers.map fun _ => 0.0, bank, []⟩
    pure (← read m.registers 0, m)

end Scalar

namespace Vector

/-- The register file, the bank, and the places of the bank that have been written. -/
structure Memory where
  file : Block
  bank : Block
  written : List Nat

/-- Splits source indices for matrices of a shape. -/
structure Decoder where
  rows : Nat
  cols : Nat
  columnBits : Nat

def bitLength (n : Nat) : Nat := if n = 0 then 0 else n.log2 + 1

/-- The decoder for a shape; a size of zero counts as one. -/
def Decoder.ofShape (rows cols : Nat) : Checked Decoder := do
  pure ⟨max rows 1, max cols 1, bitLength (← difference (max cols 1) 1)⟩

def Decoder.decode (d : Decoder) (source : UInt32) : Checked (Nat × Nat) := do
  let mask ← difference (1 <<< d.columnBits) 1
  pure (← remainder (source.toNat >>> d.columnBits) d.rows,
    ← remainder (source.toNat &&& mask) d.cols)

/-- A shape that describes so many numbers; one that does not counts as one row. -/
def fitShape (count : Nat) (shape : Nat × Nat) : Nat × Nat :=
  if shape.1 = 0 ∨ shape.2 = 0 ∨ shape.1 * shape.2 ≠ count then (1, max count 1) else shape

/-- `width` numbers along a row or down a column from a cell on, zeros beyond its end. -/
def slice (input : Array Float) (cols : Nat) (d : Decoder) (width : Nat) (i : Instruction) :
    Checked (Array Float) := do
  if input.isEmpty then pure (Array.replicate width 0.0)
  else
    let (row, col) ← d.decode i.source
    let rows ← quotient input.size cols
    if i.readsShared then
      let height ← difference rows row
      let entries ← (List.range width).mapM fun k =>
        if k < height then read input ((row + k) * cols + col) else pure 0.0
      pure entries.toArray
    else
      let rest ← part input (row * cols + col) ((row + 1) * cols)
      pure (Array.ofFn fun k : Fin width => rest[k]?.getD 0.0)

def source (input : Array Float) (cols : Nat) (d : Decoder) (m : Memory) (i : Instruction) :
    Checked (Array Float) := do
  if i.readsInput then slice input cols d m.file.width i
  else
    let row ← m.file.row i.source.toNat
    if row.size = m.file.width then pure row else .error .outOfRange

/-- The place of the first number that no later number is better than. -/
def bestPlace (better : Float → Float → Bool) (xs : Array Float) : Checked Nat :=
  (xs.toList.zipIdx.drop 1).foldlM
    (fun best e => do if better e.1 (← read xs best) then pure e.2 else pure best) 0

def reduce (op : ReduceOp) (x y : Array Float) : Checked (Option Float) :=
  match op with
  | .argMax => do pure (some (.ofNat (← bestPlace (fun a b => b < a) y)))
  | .argMin => do pure (some (.ofNat (← bestPlace (fun a b => a < b) y)))
  | op => pure (Machine.Vector.reduce op x.toList y.toList)

def step (input : Array Float) (cols : Nat) (d : Decoder) (group : Nat) (m : Memory)
    (i : Instruction) : Checked Memory := do
  let y ← source input cols d m i
  if i.writesShared then
    match ← reduce (.ofCode i.opcode) (← m.file.row i.dest.toNat) y with
    | none => pure m
    | some x =>
      let k ← m.bank.offset group i.dest.toNat
      pure { m with bank := ← m.bank.set k (normalize x), written := k :: m.written }
  else
    let file ← m.file.mapRow i.dest.toNat (Machine.Vector.element (.ofCode i.opcode) y)
    pure { m with file }

/-- Runs instructions on a register file whose contents are cleared first. -/
def execute (input : Array Float) (shape : Nat × Nat) (file : Block) (code : List Instruction)
    (bank : Block) (group : Nat) : Checked (Float × Memory) := do
  let (rows, cols) := fitShape input.size shape
  let d ← Decoder.ofShape rows cols
  let m ← code.foldlM (step input cols d group) ⟨file.reset, bank, []⟩
  pure (← read (← m.file.row 0) 0, m)

end Vector

end TangledPrograms.Machine.Flat
