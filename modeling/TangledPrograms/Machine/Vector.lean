import TangledPrograms.Machine.Matrix
import TangledPrograms.Machine.Scalar

/-!
# Vector mode

Registers are vectors, the rows of a grid. A source is a register or a slice of the input seen as a
matrix. A private destination is changed element by element; a shared one receives the reduction of
the destination register and the source to a single number. The answer is the first element of
register 0.
-/

namespace TangledPrograms.Machine.Vector

/-- The register file and the shared bank. -/
structure State where
  file : Grid
  bank : Bank

/-- The result of an operation on one element and the source's; `none` leaves the element alone. -/
def apply (op : VectorOp) (x y : Float) : Option Float :=
  match op with
  | .add => some (x + y)
  | .sub => some (x - y)
  | .mul => some (x * y)
  | .div => if y == 0.0 then none else some (x / y)
  | .negate => some (-x)
  | .exp => some y.exp
  | .cos => some y.cos
  | .tanh => some y.tanh

/-- The sum of numbers from left to right, starting at negative zero. -/
def sum (xs : List Float) : Float := xs.foldl (· + ·) (-0.0)

def dot (x y : List Float) : Float := sum (List.zipWith (· * ·) x y)

def norm (x : List Float) : Float := (sum (x.map fun a => a * a)).sqrt

/-- The smaller of two numbers, where NaN counts for nothing. -/
def smaller (a b : Float) : Float :=
  if a.isNaN then b else if b.isNaN then a else if b < a then b else a

/-- The larger of two numbers, where NaN counts for nothing. -/
def larger (a b : Float) : Float :=
  if a.isNaN then b else if b.isNaN then a else if a < b then b else a

/-- Scans the numbers from place `i` on for one that is better than the best so far. -/
def bestPlaceFrom (better : Float → Float → Bool) (best : Nat) (top : Float) (i : Nat) :
    List Float → Nat
  | [] => best
  | x :: rest =>
    if better x top then bestPlaceFrom better i x (i + 1) rest
    else bestPlaceFrom better best top (i + 1) rest

def bestPlace (better : Float → Float → Bool) : List Float → Nat
  | [] => 0
  | x :: rest => bestPlaceFrom better 0 x 1 rest

/-- The reduction of a register `x` and a source `y`; `none` leaves the slot alone. -/
def reduce (op : ReduceOp) (x y : List Float) : Option Float :=
  match op with
  | .dot => some (dot x y)
  | .cosine =>
    let lengths := norm x * norm y
    if lengths == 0.0 then none else some (dot x y / lengths)
  | .distance => some (sum (List.zipWith (fun a b => (a - b) * (a - b)) x y)).sqrt
  | .argMax => some (.ofNat (bestPlace (fun a b => b < a) y))
  | .argMin => some (.ofNat (bestPlace (fun a b => a < b) y))
  | .mean => some (sum y / .ofNat y.length)
  | .min => some (y.foldl smaller (1.0 / 0.0))
  | .max => some (y.foldl larger (-1.0 / 0.0))

/-- The slice of the input that an instruction reads, zeros if there is no input. -/
def slice (input? : Option Matrix) (width : Nat) (i : Instruction) : Array Float :=
  match input? with
  | none => Array.replicate width 0.0
  | some m =>
    let cell := m.decoder.decode i.source
    if i.readsShared then m.columnSlice cell.1 cell.2 width else m.rowSlice cell.1 cell.2 width

def source (input? : Option Matrix) (s : State) (i : Instruction) : Array Float :=
  if i.readsInput then slice input? s.file.width i else s.file.row i.source.toNat

def element (op : VectorOp) (y : Array Float) (k : Nat) (x : Float) : Float :=
  match y[k]? with
  | none => x
  | some yk => ((apply op x yk).map normalize).getD x

def step (input? : Option Matrix) (group : Nat) (s : State) (i : Instruction) : State :=
  let y := source input? s i
  if i.writesShared then
    match reduce (.ofCode i.opcode) (s.file.row i.dest.toNat).toList y.toList with
    | some x => { s with bank := s.bank.set group i.dest.toNat (normalize x) }
    | none => s
  else { s with file := s.file.mapRow i.dest.toNat (element (.ofCode i.opcode) y) }

/-- Runs instructions one after the other from a register file of zeros, `count` vectors of `width`
elements. -/
def run (input : Array Float) (shape : Nat × Nat) (count width : Nat) (code : List Instruction)
    (bank : Bank) (group : Nat) : State :=
  code.foldl (step (Matrix.ofEntries? input shape) group) ⟨Grid.zeros count width, bank⟩

def State.answer (s : State) : Float := s.file.get 0 0

end TangledPrograms.Machine.Vector
