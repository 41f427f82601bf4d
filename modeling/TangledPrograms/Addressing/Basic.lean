import TangledPrograms.Settings.Basic
import TangledPrograms.Addressing.Window

/-!
# Addressing strategies

A learner's program sees all of an observation, one window of it, or several windows one after the
other. Strategies with windows keep the positions of their points for the shape they were made for,
and find them anew for any other shape.
-/

namespace TangledPrograms

/-- One window; `positions` are those of its points in a block of the stored shape. -/
structure WindowAddressing where
  anchor : List Nat
  shape : List Nat
  kernel : Nat
  positions : List Nat
  deriving DecidableEq, Repr

namespace WindowAddressing

/-- The window at `anchor` over blocks of the given shape; an edge of zero counts as one. -/
def make (anchor shape : List Nat) (kernel : Nat) : Except Halt WindowAddressing := do
  let kernel := max kernel 1
  pure ⟨anchor, shape, kernel, ← Window.expand? kernel anchor shape⟩

/-- A window at a random anchor, clear of the far edges where there is room. -/
def random (shape : List Nat) (kernel : Nat) : Draw WindowAddressing := do
  let anchor ← shape.mapM fun d => Draw.below .word64 (d - (kernel + 1) + 1)
  Draw.ofExcept (make anchor shape kernel)

/-- The part of an observation in the window; `none` hands on the whole. -/
def select? (w : WindowAddressing) (o : Observation) : Option Observation :=
  if o.shape.length ≠ w.anchor.length then none
  else
    let positions :=
      if o.shape = w.shape then w.positions else Window.expand w.kernel w.anchor o.shape
    o.gather? positions (List.replicate w.anchor.length w.kernel)

/-- Moves the anchor by at most one along each axis; tells whether there was an anchor to move. -/
def perturb (w : WindowAddressing) : Draw (Bool × WindowAddressing) :=
  if w.anchor.isEmpty then pure (false, w)
  else do
    let shift ← Draw.nonzeroShift w.anchor.length 1
    let anchor := Window.moveAnchor w.anchor shift w.shape
    let positions ← Draw.ofExcept (Window.expand? w.kernel anchor w.shape)
    pure (true, { w with anchor, positions })

end WindowAddressing

/-- Several windows; `positions` are those of all their points in a block of the stored shape. -/
structure MultiWindowAddressing where
  anchors : List (List Nat)
  shape : List Nat
  kernel : Nat
  step : Nat
  positions : List Nat
  deriving DecidableEq, Repr

namespace MultiWindowAddressing

def expandAll (kernel : Nat) (anchors : List (List Nat)) (shape : List Nat) : List Nat :=
  anchors.flatMap fun a => Window.expand kernel a shape

def expandAll? (kernel : Nat) (anchors : List (List Nat)) (shape : List Nat) :
    Except Halt (List Nat) := do
  pure (← anchors.mapM fun a => Window.expand? kernel a shape).flatten

/-- The windows at `anchors` over blocks of the given shape; an edge or a step of zero counts as
one. -/
def make (anchors : List (List Nat)) (shape : List Nat) (kernel step : Nat) :
    Except Halt MultiWindowAddressing := do
  let kernel := max kernel 1
  pure ⟨anchors, shape, kernel, max step 1, ← expandAll? kernel anchors shape⟩

def random (shape : List Nat) (kernel points step : Nat) : Draw MultiWindowAddressing := do
  let anchors ← (List.replicate points ()).mapM fun _ =>
    shape.mapM fun d => Draw.below .word64 (max (d - kernel) 1)
  Draw.ofExcept (make anchors shape kernel step)

/-- The parts of an observation in the windows, one after the other; `none` hands on the whole. -/
def select? (w : MultiWindowAddressing) (o : Observation) : Option Observation :=
  if o.shape = w.shape then o.gather? w.positions [w.positions.length]
  else if w.anchors.any fun a => a.length ≠ o.shape.length then none
  else
    let positions := expandAll w.kernel w.anchors o.shape
    o.gather? positions [positions.length]

/-- Moves every anchor that has coordinates; tells whether there was one. -/
def perturb (w : MultiWindowAddressing) : Draw (Bool × MultiWindowAddressing) := do
  let anchors ← w.anchors.mapM fun a =>
    if a.isEmpty then pure a
    else do pure (Window.moveAnchor a (← Draw.nonzeroShift a.length w.step) w.shape)
  if w.anchors.all List.isEmpty then pure (false, w)
  else do
    let positions ← Draw.ofExcept (expandAll? w.kernel anchors w.shape)
    pure (true, { w with anchors, positions })

end MultiWindowAddressing

/-- Which part of an observation a learner's program sees. -/
inductive Addressing where
  | full
  | window (w : WindowAddressing)
  | multiWindow (w : MultiWindowAddressing)
  deriving DecidableEq, Repr

namespace Addressing

def kind : Addressing → AddressingKind
  | .full => .full
  | .window _ => .window
  | .multiWindow _ => .multiWindow

def random (s : AddressingSettings) : Draw Addressing :=
  match s.kind with
  | .full => pure .full
  | .window => do pure (.window (← WindowAddressing.random s.sourceShape s.kernelSize))
  | .multiWindow => do
    pure (.multiWindow
      (← MultiWindowAddressing.random s.sourceShape s.kernelSize s.kernelPoints s.stepSize))

/-- The part of an observation that the program sees; `none` hands on the whole. -/
def select? (a : Addressing) (o : Observation) : Option Observation :=
  match a with
  | .full => none
  | .window w => w.select? o
  | .multiWindow w => w.select? o

def view (a : Addressing) (o : Observation) : Observation := (a.select? o).getD o

/-- Moves the anchors; tells whether there was anything to move. -/
def perturb (a : Addressing) : Draw (Bool × Addressing) :=
  match a with
  | .full => pure (false, .full)
  | .window w => do
    let (moved, w') ← w.perturb
    pure (moved, .window w')
  | .multiWindow w => do
    let (moved, w') ← w.perturb
    pure (moved, .multiWindow w')

end Addressing

end TangledPrograms
