import TangledPrograms.Proofs.Machine.Isolation
import Mathlib.Data.Nat.ModEq

/-!
# Indices count modulo the live sizes

A machine reads a flag as "not zero", an operation code modulo the number of operations, and an index
modulo the size of what it points into when the instruction runs. So programs whose instructions are
congruent in this sense do the same on every machine of these sizes.
-/

namespace TangledPrograms

/-- The flags are zero together, and the operation codes stand for the same operation. -/
structure Instruction.SameKind (i j : Instruction) : Prop where
  mode : i.mode = 0 ↔ j.mode = 0
  destShared : i.destShared = 0 ↔ j.destShared = 0
  sourceShared : i.sourceShared = 0 ↔ j.sourceShared = 0
  operation : i.operation.toNat ≡ j.operation.toNat [MOD operationCount.toNat]

namespace Instruction.SameKind

variable {i j : Instruction}

private theorem flag_congr {a b : UInt32} (h : a = 0 ↔ b = 0) : (a != 0) = (b != 0) := by
  rw [Bool.eq_iff_iff]
  simp [h]

theorem readsInput (h : i.SameKind j) : i.readsInput = j.readsInput := flag_congr h.mode

theorem writesShared (h : i.SameKind j) : i.writesShared = j.writesShared := flag_congr h.destShared

theorem readsShared (h : i.SameKind j) : i.readsShared = j.readsShared := flag_congr h.sourceShared

theorem opcode (h : i.SameKind j) : i.opcode = j.opcode := Fin.ext h.operation

end Instruction.SameKind

namespace Machine

/-- Steps that do the same for related instructions wherever an invariant holds do the same for related
programs. -/
theorem foldl_eq_of_forall₂ {σ : Type} {I : σ → Prop} {R : Instruction → Instruction → Prop}
    {step step' : σ → Instruction → σ} (hkeeps : ∀ s i, I s → I (step s i))
    (hstep : ∀ s i j, I s → R i j → step s i = step' s j) {code code' : List Instruction}
    (h : List.Forall₂ R code code') {s : σ} (hs : I s) : code.foldl step s = code'.foldl step' s := by
  induction h generalizing s with
  | nil => rfl
  | @cons i j code code' hij _ ih =>
    rw [List.foldl_cons, List.foldl_cons, ← hstep s i j hs hij]
    exact ih (hkeeps s i hs)

namespace Grid

variable {g : Grid} {i i' j j' : Nat}

theorem get_congr (hi : i ≡ i' [MOD g.height]) (hj : j ≡ j' [MOD g.width]) :
    g.get i j = g.get i' j' := by
  apply Option.some.inj
  rw [← getElem?_row, ← getElem?_row, g.row_eq_of_mod_eq hi, hj]

theorem set_congr (hi : i ≡ i' [MOD g.height]) (hj : j ≡ j' [MOD g.width]) (x : Float) :
    g.set i j x = g.set i' j' x := by
  refine ext_row (by simp) rfl fun k => row_eq_of_get_eq rfl fun l => ?_
  rw [get_set, get_set, hi, hj]

theorem mapRow_congr (hi : i ≡ i' [MOD g.height]) (f : Nat → Float → Float) :
    g.mapRow i f = g.mapRow i' f := by
  refine ext_row (by simp) rfl fun k => row_eq_of_get_eq rfl fun l => ?_
  rw [get_mapRow, get_mapRow, hi]

end Grid

namespace Scalar

def destSize (registers slots : Nat) (i : Instruction) : Nat :=
  if i.writesShared then slots else registers

def sourceSize (inputs registers slots : Nat) (i : Instruction) : Nat :=
  if i.readsInput then inputs else if i.readsShared then slots else registers

/-- Instructions that are the same up to the numbers of inputs, registers and slots. -/
structure Congruent (inputs registers slots : Nat) (i j : Instruction) : Prop
    extends i.SameKind j where
  dest : i.dest.toNat ≡ j.dest.toNat [MOD destSize registers slots i]
  source : i.source.toNat ≡ j.source.toNat [MOD sourceSize inputs registers slots i]

variable {input : Array Float} {g g' : Nat} {s : State} {i j : Instruction}

theorem registerIndex_congr {a b : Nat} (h : a ≡ b [MOD s.registers.size]) :
    s.registerIndex a = s.registerIndex b := Fin.ext h

theorem register_congr {a b : Nat} (h : a ≡ b [MOD s.registers.size]) :
    s.register a = s.register b := by
  simp only [State.register, registerIndex_congr h]

/-- Without an input, all of its places are alike. -/
theorem readInput_congr {a b : Nat} (h : a ≡ b [MOD max input.size 1]) :
    readInput input a = readInput input b := by
  simp only [readInput]
  split
  · rename_i hpos
    rw [Nat.max_eq_left hpos] at h
    simp only [show a % input.size = b % input.size from h]
  · rfl

theorem source_congr (hg : g ≡ g' [MOD s.bank.height])
    (h : Congruent (max input.size 1) s.registers.size s.bank.width i j) :
    source input g s i = source input g' s j := by
  have hsource := h.source
  simp only [sourceSize] at hsource
  simp only [source, ← h.readsInput, ← h.readsShared]
  split
  · rw [if_pos ‹_›] at hsource
    exact readInput_congr hsource
  · rw [if_neg ‹_›] at hsource
    split
    · rw [if_pos ‹_›] at hsource
      exact Grid.get_congr hg hsource
    · rw [if_neg ‹_›] at hsource
      exact register_congr hsource

theorem destination_congr {inputs : Nat} (hg : g ≡ g' [MOD s.bank.height])
    (h : Congruent inputs s.registers.size s.bank.width i j) :
    destination g s i = destination g' s j := by
  have hdest := h.dest
  simp only [destSize] at hdest
  simp only [destination, ← h.writesShared]
  split
  · rw [if_pos ‹_›] at hdest
    exact Grid.get_congr hg hdest
  · rw [if_neg ‹_›] at hdest
    exact register_congr hdest

theorem write_congr {inputs : Nat} (hg : g ≡ g' [MOD s.bank.height])
    (h : Congruent inputs s.registers.size s.bank.width i j) (x : Float) :
    write g s i x = write g' s j x := by
  have hdest := h.dest
  simp only [destSize] at hdest
  simp only [write, ← h.writesShared]
  split
  · rw [if_pos ‹_›] at hdest
    rw [Grid.set_congr hg hdest]
  · rw [if_neg ‹_›] at hdest
    simp only [State.setRegister, registerIndex_congr hdest]

theorem step_congr (hg : g ≡ g' [MOD s.bank.height])
    (h : Congruent (max input.size 1) s.registers.size s.bank.width i j) :
    step input g s i = step input g' s j := by
  simp only [step, h.opcode, source_congr hg h, destination_congr hg h, write_congr hg h]

theorem size_registers_step (input : Array Float) (g : Nat) (s : State) (i : Instruction) :
    (step input g s i).registers.size = s.registers.size := by
  simp only [step, write]
  split
  · split
    · rfl
    · exact Array.size_set (s.registerIndex i.dest.toNat).isLt
  · rfl

/-- No step changes a size, so congruent instructions do the same one after the other. -/
theorem foldl_congr {code code' : List Instruction} (hg : g ≡ g' [MOD s.bank.height])
    (h : List.Forall₂ (Congruent (max input.size 1) s.registers.size s.bank.width) code code') :
    code.foldl (step input g) s = code'.foldl (step input g') s := by
  refine foldl_eq_of_forall₂ (I := fun t => t.registers.size = s.registers.size ∧
    t.bank.height = s.bank.height ∧ t.bank.width = s.bank.width) ?_ ?_ h ⟨rfl, rfl, rfl⟩
  · rintro t i ⟨hregisters, hheight, hwidth⟩
    have hbank := differsIn_step input g t i
    exact ⟨(size_registers_step input g t i).trans hregisters, hbank.height.trans hheight,
      hbank.width.trans hwidth⟩
  · rintro t i j ⟨hregisters, hheight, hwidth⟩ hij
    rw [← hregisters, ← hwidth] at hij
    rw [← hheight] at hg
    exact step_congr hg hij

end Scalar

namespace Vector

/-- Instructions that are the same up to the numbers of registers and slots and the shape of the
input. A shared destination is a register to reduce as well as a slot. -/
structure Congruent (input? : Option Matrix) (registers slots : Nat) (i j : Instruction) : Prop
    extends i.SameKind j where
  register : i.dest.toNat ≡ j.dest.toNat [MOD registers]
  slot : i.writesShared → i.dest.toNat ≡ j.dest.toNat [MOD slots]
  cell : i.readsInput → ∀ m ∈ input?, m.decoder.decode i.source = m.decoder.decode j.source
  source : ¬ i.readsInput → i.source.toNat ≡ j.source.toNat [MOD registers]

variable {input? : Option Matrix} {g g' : Nat} {s : State} {i j : Instruction}

theorem source_eq_of_congruent {slots : Nat} (h : Congruent input? s.file.height slots i j) :
    source input? s i = source input? s j := by
  simp only [source, ← h.readsInput]
  split
  · rename_i hreads
    cases input? with
    | none => rfl
    | some m => simp only [slice, ← h.readsShared, h.cell hreads m rfl]
  · exact s.file.row_eq_of_mod_eq (h.source ‹_›)

theorem step_congr (hg : g ≡ g' [MOD s.bank.height])
    (h : Congruent input? s.file.height s.bank.width i j) :
    step input? g s i = step input? g' s j := by
  simp only [step, source_eq_of_congruent h, h.opcode, ← h.writesShared,
    s.file.row_eq_of_mod_eq h.register, Grid.mapRow_congr h.register]
  split
  · rename_i hshared
    simp only [Grid.set_congr hg (h.slot hshared)]
  · rfl

theorem height_file_step (input? : Option Matrix) (g : Nat) (s : State) (i : Instruction) :
    (step input? g s i).file.height = s.file.height := by
  simp only [step]
  split
  · split <;> rfl
  · exact Grid.height_mapRow ..

theorem foldl_congr {code code' : List Instruction} (hg : g ≡ g' [MOD s.bank.height])
    (h : List.Forall₂ (Congruent input? s.file.height s.bank.width) code code') :
    code.foldl (step input? g) s = code'.foldl (step input? g') s := by
  refine foldl_eq_of_forall₂ (I := fun t => t.file.height = s.file.height ∧
    t.bank.height = s.bank.height ∧ t.bank.width = s.bank.width) ?_ ?_ h ⟨rfl, rfl, rfl⟩
  · rintro t i ⟨hregisters, hheight, hwidth⟩
    have hbank := differsIn_step input? g t i
    exact ⟨(height_file_step input? g t i).trans hregisters, hbank.height.trans hheight,
      hbank.width.trans hwidth⟩
  · rintro t i j ⟨hregisters, hheight, hwidth⟩ hij
    rw [← hregisters, ← hwidth] at hij
    rw [← hheight] at hg
    exact step_congr hg hij

end Vector

/-- Programs whose instructions are congruent, on groups that are congruent, leave every machine in
the same state, and so they answer alike and leave the same registers and the same bank. -/
theorem runs_congr :
    (∀ (input : Array Float) (s : Scalar.State) (g g' : Nat) (code code' : List Instruction),
      g ≡ g' [MOD s.bank.height] →
      List.Forall₂ (Scalar.Congruent (max input.size 1) s.registers.size s.bank.width) code code' →
      code.foldl (Scalar.step input g) s = code'.foldl (Scalar.step input g') s) ∧
    (∀ (input : Array Float) (count : Nat) (bank : Bank) (g g' : Nat) (code code' : List Instruction),
      g ≡ g' [MOD bank.height] →
      List.Forall₂ (Scalar.Congruent (max input.size 1) (max count 1) bank.width) code code' →
      Scalar.execute input count code bank g = Scalar.execute input count code' bank g') ∧
    (∀ (input? : Option Matrix) (s : Vector.State) (g g' : Nat) (code code' : List Instruction),
      g ≡ g' [MOD s.bank.height] →
      List.Forall₂ (Vector.Congruent input? s.file.height s.bank.width) code code' →
      code.foldl (Vector.step input? g) s = code'.foldl (Vector.step input? g') s) ∧
    ∀ (input : Array Float) (shape : Nat × Nat) (count width : Nat) (bank : Bank) (g g' : Nat)
      (code code' : List Instruction), g ≡ g' [MOD bank.height] →
      List.Forall₂ (Vector.Congruent (Matrix.ofEntries? input shape) (max count 1) bank.width)
        code code' →
      Vector.run input shape count width code bank g =
        Vector.run input shape count width code' bank g' := by
  refine ⟨fun input s g g' code code' hg h => Scalar.foldl_congr hg h, ?_,
    fun input? s g g' code code' hg h => Vector.foldl_congr hg h, ?_⟩
  · intro input count bank g g' code code' hg h
    have hsize : (Scalar.start count bank).registers.size = max count 1 := Array.size_replicate
    have hrun : Scalar.run input count code bank g = Scalar.run input count code' bank g' :=
      Scalar.foldl_congr (s := Scalar.start count bank) hg (hsize ▸ h)
    simp only [Scalar.execute, hrun]
  · intro input shape count width bank g g' code code' hg h
    have hheight : (Grid.zeros count width).height = max count 1 := Grid.height_zeros count width
    exact Vector.foldl_congr (s := ⟨.zeros count width, bank⟩) hg (hheight ▸ h)

/-- One program twice, written with indices that are far out of range the second time. -/
theorem runs_congr_outlying :
    let input : Array Float := #[1.0, 2.0, 3.0, 4.0, 5.0, 6.0]
    let bank := Grid.zeros 2 3
    let code : List Instruction := [⟨1, 0, 0, 0, 0, 1⟩, ⟨0, 2, 1, 1, 0, 0⟩]
    let code' : List Instruction := [⟨7, 8, 0, 2, 0, 25⟩, ⟨0, 10, 9, 7, 0, 4⟩]
    1 ≡ 3 [MOD bank.height] ∧ List.Forall₂ (Scalar.Congruent 6 2 3) code code' ∧
      List.Forall₂ (Vector.Congruent (Matrix.ofEntries? input (2, 3)) 2 3) code code' ∧
      Scalar.execute input 2 code bank 1 = Scalar.execute input 2 code' bank 3 ∧
      (Scalar.execute input 2 code' bank 3).answer = 2.0 ∧
      Vector.run input (2, 3) 2 2 code bank 1 = Vector.run input (2, 3) 2 2 code' bank 3 := by
  intro input bank code code'
  have hgroup : 1 ≡ 3 [MOD bank.height] := by decide
  have hfirst : (⟨1, 0, 0, 0, 0, 1⟩ : Instruction).SameKind ⟨7, 8, 0, 2, 0, 25⟩ :=
    ⟨by decide, by decide, by decide, by decide⟩
  have hsecond : (⟨0, 2, 1, 1, 0, 0⟩ : Instruction).SameKind ⟨0, 10, 9, 7, 0, 4⟩ :=
    ⟨by decide, by decide, by decide, by decide⟩
  have hscalar : List.Forall₂ (Scalar.Congruent 6 2 3) code code' :=
    .cons ⟨hfirst, by decide, by decide⟩ (.cons ⟨hsecond, by decide, by decide⟩ .nil)
  have hcell : ∀ m ∈ Matrix.ofEntries? input (2, 3), m.decoder.decode 1 = m.decoder.decode 25 := by
    rintro m ⟨⟩
    decide
  have hvector : List.Forall₂ (Vector.Congruent (Matrix.ofEntries? input (2, 3)) 2 3) code code' :=
    .cons ⟨hfirst, by decide, by decide, fun _ => hcell, by decide⟩
      (.cons ⟨hsecond, by decide, by decide, fun h => absurd h (by decide), by decide⟩ .nil)
  obtain ⟨-, hexecute, -, hrun⟩ := runs_congr
  refine ⟨hgroup, hscalar, hvector, hexecute input 2 bank 1 3 code code' hgroup hscalar, ?_,
    hrun input (2, 3) 2 2 bank 1 3 code code' hgroup hvector⟩
  decide +kernel

end Machine

end TangledPrograms
