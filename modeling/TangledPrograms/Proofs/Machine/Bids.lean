import TangledPrograms.Population.Node
import TangledPrograms.Proofs.Machine.Safety

/-!
# Bids on flat memory

What a learner's program sees of an observation and what it answers, once more with every remainder,
quotient and access checked: windows are expanded over the axes of the observation, its numbers are
gathered, and the program runs on flat memory. Nothing of it faults, whatever the learner and the
observation are.
-/

namespace TangledPrograms.Machine.Flat

/-- The positions of a window's points, after `before` whole blocks. -/
def expandFrom (kernel before : Nat) : List (Nat × Nat) → Checked (List Nat)
  | [] => pure [before]
  | (a, d) :: axes => do
    let parts ← (List.range kernel).mapM fun o => do
      expandFrom kernel (lowWord (before * d + (← remainder (lowWord (a + o)) d))) axes
    pure parts.flatten

/-- The positions of the window at `anchor` in a block of the given shape. -/
def expand (kernel : Nat) (anchor shape : List Nat) : Checked (List Nat) :=
  match anchor.zip shape with
  | [] => pure []
  | axes => expandFrom kernel 0 axes

/-- The numbers at the given positions, wrapped, as an observation of the given shape. -/
def gather (o : Observation) (positions shape : List Nat) : Checked (Option Observation) := do
  let values ← positions.mapM fun i => do read o.values (← remainder i o.values.size)
  pure (Observation.make values.toArray shape).toOption

def select (a : Addressing) (o : Observation) : Checked (Option Observation) :=
  match a with
  | .full => pure none
  | .window w => do
    if o.shape.length ≠ w.anchor.length then pure none
    else
      let positions ←
        if o.shape = w.shape then pure w.positions else expand w.kernel w.anchor o.shape
      gather o positions (List.replicate w.anchor.length w.kernel)
  | .multiWindow w => do
    if o.shape = w.shape then gather o w.positions [w.positions.length]
    else if w.anchors.any fun a => a.length ≠ o.shape.length then pure none
    else
      let positions := (← w.anchors.mapM fun a => expand w.kernel a o.shape).flatten
      gather o positions [positions.length]

def view (a : Addressing) (o : Observation) : Checked Observation := do
  pure ((← select a o).getD o)

/-- Runs a program on an observation: the answer, and the bank afterwards. -/
def execute (p : Program) (mode : Mode) (input : Observation) (registers : Nat) (bank : Block)
    (group : Nat) : Checked (Float × Block) :=
  match mode with
  | .scalar => do
    let file := Array.replicate (max registers 1) 0.0
    let (answer, m) ← Scalar.execute input.values file p.code bank group
    pure (answer, m.bank)
  | .vector => do
    let cols := input.shape.getLast input.shape_ne_nil
    let rows ← quotient input.values.size cols
    let file := (Grid.zeros registers registers).block
    let (answer, m) ← Vector.execute input.values (rows, cols) file p.code bank group
    pure (answer, m.bank)

def bid (l : Learner) (input : Observation) (bank : Block) : Checked (Float × Block) := do
  execute l.program l.mode (← view l.addressing input) l.registers bank l.group

variable {kernel : Nat}

theorem expandFrom_checked {axes : List (Nat × Nat)} (h : ∀ axis ∈ axes, 0 < axis.2) :
    ∀ before, expandFrom kernel before axes = .ok (Window.expandFrom kernel before axes) := by
  induction axes with
  | nil => exact fun _ => rfl
  | cons axis axes ih =>
    obtain ⟨a, d⟩ := axis
    rw [List.forall_mem_cons] at h
    intro before
    have hpart : ∀ o ∈ List.range kernel, (do
        expandFrom kernel (lowWord (before * d + (← remainder (lowWord (a + o)) d))) axes :
          Checked (List Nat)) =
        .ok (Window.expandFrom kernel (lowWord (before * d + lowWord (a + o) % d)) axes) := by
      intro o _
      rw [Machine.Scalar.remainder_eq h.1]
      exact ih h.2 _
    rw [expandFrom, Machine.Vector.mapM_checked hpart, Window.expandFrom, List.flatMap_def]
    rfl

theorem expand_checked {shape : List Nat} (h : ∀ d ∈ shape, 0 < d) (anchor : List Nat) :
    expand kernel anchor shape = .ok (Window.expand kernel anchor shape) := by
  have haxes : ∀ axis ∈ anchor.zip shape, 0 < axis.2 := fun axis haxis =>
    h axis.2 (List.of_mem_zip haxis).2
  rw [expand, Window.expand]
  generalize anchor.zip shape = axes at haxes
  cases axes with
  | nil => rfl
  | cons axis axes => exact expandFrom_checked haxes 0

theorem gather_checked (o : Observation) (positions shape : List Nat) :
    gather o positions shape = .ok (o.gather? positions shape) := by
  have hread : ∀ i ∈ positions, (do read o.values (← remainder i o.values.size) : Checked Float) =
      .ok (o.wrapped i) := by
    intro i _
    rw [Machine.Scalar.remainder_eq o.size_pos]
    exact dif_pos (Nat.mod_lt _ o.size_pos)
  rw [gather, Machine.Vector.mapM_checked hread]
  rfl

theorem select_checked (a : Addressing) (o : Observation) : select a o = .ok (a.select? o) := by
  rcases a with _ | w | w
  · rfl
  · rw [select, Addressing.select?, WindowAddressing.select?]
    split
    · rfl
    · split
      · exact gather_checked o _ _
      · rw [expand_checked o.axis_pos]
        exact gather_checked o _ _
  · rw [select, Addressing.select?, MultiWindowAddressing.select?]
    split
    · exact gather_checked o _ _
    · split
      · rfl
      · rw [Machine.Vector.mapM_checked fun a _ => expand_checked o.axis_pos a]
        have hgather := gather_checked o (MultiWindowAddressing.expandAll w.kernel w.anchors o.shape)
          [(MultiWindowAddressing.expandAll w.kernel w.anchors o.shape).length]
        rwa [MultiWindowAddressing.expandAll, List.flatMap_def] at hgather ⊢

theorem view_checked (a : Addressing) (o : Observation) : view a o = .ok (a.view o) := by
  rw [view, select_checked]
  rfl

theorem execute_checked (p : Program) (mode : Mode) (input : Observation) (registers : Nat)
    (bank : Bank) (group : Nat) : execute p mode input registers bank.block group =
      .ok ((p.execute mode input registers bank group).1,
        (p.execute mode input registers bank group).2.block) := by
  cases mode with
  | scalar =>
    obtain ⟨_, hrun, _⟩ := Machine.Scalar.execute_checked input.values
      (Array.replicate (max registers 1) 0.0) p.code bank group
    rw [Array.size_replicate] at hrun
    simp only [execute, Program.execute]
    rw [hrun]
    rfl
  | vector =>
    obtain ⟨_, hrun, _⟩ := Machine.Vector.execute_checked input.values input.rowsCols
      (.zeros registers registers) p.code bank group
    have hcols : input.shape.getLast input.shape_ne_nil ≠ 0 :=
      (input.axis_pos _ (List.getLast_mem _)).ne'
    have hrows : quotient input.values.size (input.shape.getLast input.shape_ne_nil) =
        .ok input.rowsCols.1 := if_neg hcols
    rw [Machine.Vector.run, ← Machine.Grid.reset, Machine.Grid.reset_zeros] at hrun
    simp only [execute, Program.execute, hrows]
    change (Vector.execute input.values input.rowsCols _ _ _ _).bind _ = _
    rw [hrun]
    rfl

/-- A bid divides by no zero and uses no place that is not there. -/
theorem bid_checked (l : Learner) (input : Observation) (bank : Bank) :
    bid l input bank.block = .ok ((l.bid input bank).1, (l.bid input bank).2.block) := by
  rw [bid, view_checked]
  exact execute_checked l.program l.mode (l.addressing.view input) l.registers bank l.group

end TangledPrograms.Machine.Flat
