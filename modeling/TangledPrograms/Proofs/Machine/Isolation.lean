import TangledPrograms.Population.Node
import TangledPrograms.Proofs.Machine.Grid

/-!
# Groups of the bank are isolated

A run reads and writes the group it is given and no other, and in vector mode it does not read the
bank at all. So learners of different groups bid in any order alike, and on a bank of zeros it does
not matter which group a learner belongs to.
-/

namespace TangledPrograms

namespace Machine

namespace Grid

variable {a b c : Grid} {i j : Nat}

theorem row_eq_of_mod_eq (g : Grid) (h : i % g.height = j % g.height) : g.row i = g.row j := by
  apply Option.some.inj
  rw [← getElem?_rows, ← getElem?_rows, h]

theorem row_eq_of_get_eq (hw : a.width = b.width) (h : ∀ k, a.get i k = b.get j k) :
    a.row i = b.row j := by
  apply Array.ext_getElem?
  intro k
  by_cases hk : k < a.width
  · have ha := a.getElem?_row i k
    have hb := b.getElem?_row j k
    rw [Nat.mod_eq_of_lt hk] at ha
    rw [Nat.mod_eq_of_lt (hw ▸ hk)] at hb
    rw [ha, hb, h k]
  · rw [Array.getElem?_eq_none, Array.getElem?_eq_none]
    · rw [size_row_eq]
      omega
    · rw [size_row_eq]
      omega

theorem get_eq_of_row_eq (h : a.row i = b.row j) (k : Nat) : a.get i k = b.get j k := by
  have hw : a.width = b.width := by rw [← a.size_row_eq i, h, size_row_eq]
  apply Option.some.inj
  rw [← getElem?_row, ← getElem?_row, h, hw]

/-- Grids of one size with the same rows are the same. -/
theorem ext_row (hh : a.height = b.height) (hw : a.width = b.width)
    (h : ∀ k, a.row k = b.row k) : a = b := by
  apply Grid.ext hw
  apply Array.ext_getElem?
  intro k
  by_cases hk : k < a.height
  · have ha := a.getElem?_rows k
    have hb := b.getElem?_rows k
    rw [Nat.mod_eq_of_lt hk] at ha
    rw [Nat.mod_eq_of_lt (hh ▸ hk)] at hb
    rw [ha, hb, h k]
  · rw [Array.getElem?_eq_none, Array.getElem?_eq_none]
    · rw [size_rows]
      omega
    · rw [size_rows]
      omega

theorem row_zeros (h w i j : Nat) : (zeros h w).row i = (zeros h w).row j := by
  apply row_eq_of_get_eq rfl
  intro k
  rw [get_zeros, get_zeros]

/-- The same write to the same place of equal rows. -/
theorem row_set_congr (h : a.row i = b.row j) (k : Nat) (x : Float) :
    (a.set i k x).row i = (b.set j k x).row j := by
  have hw : a.width = b.width := by rw [← a.size_row_eq i, h, size_row_eq]
  apply row_eq_of_get_eq (a := a.set i k x) (b := b.set j k x) hw
  intro l
  rw [get_set, get_set, hw, get_eq_of_row_eq h l]
  simp only [true_and]

/-- `b` is `a` with perhaps other numbers in row `i`. -/
structure DiffersIn (i : Nat) (a b : Grid) : Prop where
  height : b.height = a.height
  width : b.width = a.width
  row : ∀ k, k % a.height ≠ i % a.height → b.row k = a.row k

namespace DiffersIn

theorem refl (i : Nat) (a : Grid) : DiffersIn i a a := ⟨rfl, rfl, fun _ _ => rfl⟩

theorem trans (h : DiffersIn i a b) (h' : DiffersIn i b c) : DiffersIn i a c := by
  refine ⟨h'.height.trans h.height, h'.width.trans h.width, fun k hk => ?_⟩
  rw [h'.row k (by rwa [h.height]), h.row k hk]

theorem set (i k : Nat) (x : Float) (a : Grid) : DiffersIn i a (a.set i k x) := by
  refine ⟨height_set .., width_set .., fun l hl => row_eq_of_get_eq (width_set ..) fun m => ?_⟩
  rw [get_set, if_neg fun e => hl e.1]

/-- Changes of two different rows can be made in either order. -/
theorem eq_of_swap {a b c d e : Grid} (hij : i % a.height ≠ j % a.height)
    (hb : DiffersIn i a b) (hc : DiffersIn j b c) (hd : DiffersIn j a d) (he : DiffersIn i d e)
    (hi : b.row i = e.row i) (hj : c.row j = d.row j) : c = e := by
  have hbh := hb.height
  have hdh := hd.height
  refine ext_row ?_ ?_ fun k => ?_
  · rw [hc.height, hb.height, he.height, hd.height]
  · rw [hc.width, hb.width, he.width, hd.width]
  · by_cases hki : k % a.height = i % a.height
    · have hkj : k % a.height ≠ j % a.height := fun h => hij (hki.symm.trans h)
      rw [hc.row k (by rwa [hbh]), b.row_eq_of_mod_eq (by rwa [hbh] : k % b.height = i % b.height), hi]
      exact e.row_eq_of_mod_eq (by rw [he.height, hdh, hki])
    · rw [he.row k (by rwa [hdh])]
      by_cases hkj : k % a.height = j % a.height
      · rw [d.row_eq_of_mod_eq (by rwa [hdh] : k % d.height = j % d.height), ← hj]
        exact c.row_eq_of_mod_eq (by rw [hc.height, hbh, hkj])
      · rw [hc.row k (by rwa [hbh]), hb.row k hki, hd.row k hkj]

end DiffersIn

end Grid

open Grid (DiffersIn)

namespace Scalar

variable {input : Array Float} {g g' : Nat} {s s' : State}

theorem differsIn_step (input : Array Float) (g : Nat) (s : State) (i : Instruction) :
    DiffersIn g s.bank (step input g s i).bank := by
  simp only [step, write]
  split
  · split
    · exact .set ..
    · exact .refl ..
  · exact .refl ..

theorem differsIn_foldl (input : Array Float) (g : Nat) (code : List Instruction) (s : State) :
    DiffersIn g s.bank (code.foldl (step input g) s).bank := by
  induction code generalizing s with
  | nil => exact .refl ..
  | cons i code ih => exact (differsIn_step input g s i).trans (ih (step input g s i))

/-- Two machines with the same registers whose groups hold the same numbers. -/
structure Agree (g g' : Nat) (s s' : State) : Prop where
  registers : s.registers = s'.registers
  group : s.bank.row g = s'.bank.row g'

namespace Agree

theorem register (h : Agree g g' s s') (k : Nat) : s.register k = s'.register k := by
  obtain ⟨registers, bank, hpos⟩ := s
  obtain ⟨registers', bank', hpos'⟩ := s'
  obtain rfl : registers = registers' := h.registers
  rfl

theorem source (h : Agree g g' s s') (i : Instruction) :
    Scalar.source input g s i = Scalar.source input g' s' i := by
  simp only [Scalar.source]
  rw [Grid.get_eq_of_row_eq h.group, h.register]

theorem destination (h : Agree g g' s s') (i : Instruction) :
    Scalar.destination g s i = Scalar.destination g' s' i := by
  simp only [Scalar.destination]
  rw [Grid.get_eq_of_row_eq h.group, h.register]

theorem setRegister (h : Agree g g' s s') (k : Nat) (x : Float) :
    Agree g g' (s.setRegister k x) (s'.setRegister k x) := by
  obtain ⟨registers, bank, hpos⟩ := s
  obtain ⟨registers', bank', hpos'⟩ := s'
  obtain rfl : registers = registers' := h.registers
  exact ⟨rfl, h.group⟩

theorem write (h : Agree g g' s s') (i : Instruction) (x : Float) :
    Agree g g' (Scalar.write g s i x) (Scalar.write g' s' i x) := by
  simp only [Scalar.write]
  split
  · exact ⟨h.registers, Grid.row_set_congr h.group ..⟩
  · exact h.setRegister ..

theorem step (h : Agree g g' s s') (i : Instruction) :
    Agree g g' (Scalar.step input g s i) (Scalar.step input g' s' i) := by
  simp only [Scalar.step]
  rw [h.destination i, h.source i]
  split
  · exact h.write ..
  · exact h

theorem foldl (h : Agree g g' s s') (code : List Instruction) :
    Agree g g' (code.foldl (Scalar.step input g) s) (code.foldl (Scalar.step input g') s') := by
  induction code generalizing s s' with
  | nil => exact h
  | cons i code ih => exact ih (h.step i)

end Agree

theorem differsIn_run (input : Array Float) (count : Nat) (code : List Instruction) (bank : Bank)
    (g : Nat) : DiffersIn g bank (run input count code bank g).bank :=
  differsIn_foldl input g code (start count bank)

theorem agree_run {a b : Bank} (h : a.row g = b.row g') (input : Array Float) (count : Nat)
    (code : List Instruction) :
    Agree g g' (run input count code a g) (run input count code b g') := by
  have hstart : Agree g g' (start count a) (start count b) := ⟨rfl, h⟩
  exact hstart.foldl code

end Scalar

namespace Vector

variable {input? : Option Matrix} {g g' : Nat} {s s' : State}

theorem differsIn_step (input? : Option Matrix) (g : Nat) (s : State) (i : Instruction) :
    DiffersIn g s.bank (step input? g s i).bank := by
  simp only [step]
  split
  · split
    · exact .set ..
    · exact .refl ..
  · exact .refl ..

theorem differsIn_foldl (input? : Option Matrix) (g : Nat) (code : List Instruction) (s : State) :
    DiffersIn g s.bank (code.foldl (step input? g) s).bank := by
  induction code generalizing s with
  | nil => exact .refl ..
  | cons i code ih => exact (differsIn_step input? g s i).trans (ih (step input? g s i))

theorem source_congr (h : s.file = s'.file) (i : Instruction) :
    source input? s i = source input? s' i := by
  simp only [source]
  rw [h]

/-- What a step does to the registers does not depend on the bank. -/
theorem file_step_congr (h : s.file = s'.file) (i : Instruction) :
    (step input? g s i).file = (step input? g' s' i).file := by
  simp only [step]
  rw [source_congr h, h]
  split
  · split
    · rfl
    · exact h
  · rfl

theorem file_foldl_congr (h : s.file = s'.file) (code : List Instruction) :
    (code.foldl (step input? g) s).file = (code.foldl (step input? g') s').file := by
  induction code generalizing s s' with
  | nil => exact h
  | cons i code ih => exact ih (file_step_congr h i)

theorem group_step_congr (h : s.file = s'.file) (hg : s.bank.row g = s'.bank.row g')
    (i : Instruction) :
    (step input? g s i).bank.row g = (step input? g' s' i).bank.row g' := by
  simp only [step]
  rw [source_congr h, h]
  split
  · split
    · exact Grid.row_set_congr hg ..
    · exact hg
  · exact hg

theorem group_foldl_congr (h : s.file = s'.file) (hg : s.bank.row g = s'.bank.row g')
    (code : List Instruction) :
    (code.foldl (step input? g) s).bank.row g = (code.foldl (step input? g') s').bank.row g' := by
  induction code generalizing s s' with
  | nil => exact hg
  | cons i code ih => exact ih (file_step_congr h i) (group_step_congr h hg i)

theorem differsIn_run (input : Array Float) (shape : Nat × Nat) (count width : Nat)
    (code : List Instruction) (bank : Bank) (g : Nat) :
    DiffersIn g bank (run input shape count width code bank g).bank :=
  differsIn_foldl _ g code ⟨.zeros count width, bank⟩

/-- Neither the bank nor the group has a part in what a run does to the registers. -/
theorem file_run_congr (input : Array Float) (shape : Nat × Nat) (count width : Nat)
    (code : List Instruction) (a b : Bank) (g g' : Nat) :
    (run input shape count width code a g).file =
      (run input shape count width code b g').file := by
  have hstart : (⟨.zeros count width, a⟩ : State).file = (⟨.zeros count width, b⟩ : State).file := rfl
  exact file_foldl_congr hstart code

theorem group_run_congr {a b : Bank} (h : a.row g = b.row g') (input : Array Float)
    (shape : Nat × Nat) (count width : Nat) (code : List Instruction) :
    (run input shape count width code a g).bank.row g =
      (run input shape count width code b g').bank.row g' := by
  have hstart : (⟨.zeros count width, a⟩ : State).file = (⟨.zeros count width, b⟩ : State).file := rfl
  exact group_foldl_congr hstart h code

end Vector

end Machine

open Machine (Bank)
open Machine.Grid (DiffersIn)

namespace Program

variable {a b : Bank} {i j : Nat}

theorem differsIn_execute (p : Program) (mode : Mode) (input : Observation) (registers : Nat)
    (bank : Bank) (group : Nat) :
    DiffersIn group bank (p.execute mode input registers bank group).2 := by
  cases mode with
  | scalar =>
    have hpos : max registers 1 ≠ 0 := by omega
    simp only [execute, Machine.Scalar.execute, if_neg hpos]
    exact Machine.Scalar.differsIn_run ..
  | vector => exact Machine.Vector.differsIn_run ..

/-- Runs on groups with the same numbers give the same answer and leave the same numbers. -/
theorem execute_congr (p : Program) (mode : Mode) (input : Observation) (registers : Nat)
    (h : a.row i = b.row j) :
    (p.execute mode input registers a i).1 = (p.execute mode input registers b j).1 ∧
      (p.execute mode input registers a i).2.row i = (p.execute mode input registers b j).2.row j := by
  cases mode with
  | scalar =>
    have hpos : max registers 1 ≠ 0 := by omega
    have hagree := Machine.Scalar.agree_run h input.values (max registers 1) p.code
    simp only [execute, Machine.Scalar.execute, if_neg hpos]
    exact ⟨hagree.register 0, hagree.group⟩
  | vector =>
    have hfile := Machine.Vector.file_run_congr input.values input.rowsCols registers registers
      p.code a b i j
    exact ⟨congrArg (fun file => file.get 0 0) hfile, Machine.Vector.group_run_congr h ..⟩

end Program

namespace Learner

/-- A bid of a learner of another group before does not matter. -/
theorem bid_after_other {l l' : Learner} {bank : Bank}
    (h : l.group % bank.height ≠ l'.group % bank.height) (o o' : Observation) :
    (l.bid o bank).1 = (l.bid o (l'.bid o' bank).2).1 ∧
      (l.bid o bank).2.row l.group = (l.bid o (l'.bid o' bank).2).2.row l.group := by
  have hother : DiffersIn l'.group bank (l'.bid o' bank).2 := l'.program.differsIn_execute ..
  exact l.program.execute_congr _ _ _ (hother.row _ h).symm

theorem bid_swap {l l' : Learner} {bank : Bank}
    (h : l.group % bank.height ≠ l'.group % bank.height) (o o' : Observation) :
    (l'.bid o' (l.bid o bank).2).2 = (l.bid o (l'.bid o' bank).2).2 := by
  have hafter := bid_after_other h o o'
  have hbefore := bid_after_other (Ne.symm h) o' o
  exact DiffersIn.eq_of_swap h (l.program.differsIn_execute ..) (l'.program.differsIn_execute ..)
    (l'.program.differsIn_execute ..) (l.program.differsIn_execute ..) hafter.2 hbefore.2.symm

theorem bid_zeros (l : Learner) (group : Nat) (o : Observation) (groups slots : Nat) :
    ({ l with group }.bid o (.zeros groups slots)).1 = (l.bid o (.zeros groups slots)).1 :=
  (l.program.execute_congr _ _ _ (Machine.Grid.row_zeros ..)).1

end Learner

/-- Runs on groups with the same numbers answer alike and leave the same numbers there, and all other
groups as they were; in vector mode the answer and the registers are the same on any bank. Learners of
different groups bid alike in either order and leave the same bank, and on a bank of zeros a bid is
the same in every group. -/
theorem execute_isolated :
    (∀ (p : Program) (mode : Mode) (input : Observation) (registers : Nat) (a b : Bank) (i j : Nat),
      a.row i = b.row j →
      let r := p.execute mode input registers a i
      let s := p.execute mode input registers b j
      r.1 = s.1 ∧ r.2.row i = s.2.row j ∧ r.2.height = a.height ∧ r.2.width = a.width ∧
        ∀ k, k % a.height ≠ i % a.height → r.2.row k = a.row k) ∧
    (∀ (p : Program) (input : Observation) (registers : Nat) (a b : Bank) (i j : Nat),
      (p.execute .vector input registers a i).1 = (p.execute .vector input registers b j).1 ∧
      (Machine.Vector.run input.values input.rowsCols registers registers p.code a i).file =
        (Machine.Vector.run input.values input.rowsCols registers registers p.code b j).file) ∧
    (∀ (l l' : Learner) (o o' : Observation) (bank : Bank),
      l.group % bank.height ≠ l'.group % bank.height →
      (l.bid o bank).1 = (l.bid o (l'.bid o' bank).2).1 ∧
      (l'.bid o' (l.bid o bank).2).1 = (l'.bid o' bank).1 ∧
      (l'.bid o' (l.bid o bank).2).2 = (l.bid o (l'.bid o' bank).2).2) ∧
    ∀ (l : Learner) (group : Nat) (o : Observation) (groups slots : Nat),
      ({ l with group }.bid o (.zeros groups slots)).1 = (l.bid o (.zeros groups slots)).1 := by
  refine ⟨fun p mode input registers a b i j h => ?_, fun p input registers a b i j => ?_,
    fun l l' o o' bank h => ?_, fun l group o groups slots => l.bid_zeros group o groups slots⟩
  · obtain ⟨hanswer, hgroup⟩ := p.execute_congr mode input registers h
    obtain ⟨hheight, hwidth, hrow⟩ := p.differsIn_execute mode input registers a i
    exact ⟨hanswer, hgroup, hheight, hwidth, hrow⟩
  · have hfile := Machine.Vector.file_run_congr input.values input.rowsCols registers registers
      p.code a b i j
    exact ⟨congrArg (fun file => file.get 0 0) hfile, hfile⟩
  · exact ⟨(Learner.bid_after_other h o o').1, (Learner.bid_after_other (Ne.symm h) o' o).1.symm,
      Learner.bid_swap h o o'⟩

/-- A program that adds the input to a slot and bids the slot, on two groups with the number 2. -/
theorem execute_isolated_slot :
    let o : Observation := ⟨#[3.0], [1], by decide, by decide, rfl⟩
    let p : Program := ⟨⟨0⟩, [⟨1, 0, 1, 0, 0, 0⟩, ⟨0, 0, 0, 0, 1, 0⟩]⟩
    let a := (Machine.Grid.zeros 2 1).set 0 0 2.0
    let b := (Machine.Grid.zeros 3 1).set 2 0 2.0
    let l : Learner :=
      { id := ⟨0⟩, program := p, mode := .scalar, addressing := .full, group := 0
        action := .atomic (.label 0), references := 0, registers := 1, memory := [] }
    let l' : Learner := { l with group := 1 }
    a.row 0 = b.row 2 ∧ (p.execute .scalar o 1 a 0).1 = 5.0 ∧
      (p.execute .scalar o 1 b 2).1 = 5.0 ∧ (l'.bid o a).1 = 3.0 ∧
      l.group % a.height ≠ l'.group % a.height ∧ (l'.bid o (l.bid o a).2).1 = 3.0 ∧
      (l'.bid o (l.bid o a).2).2 = (l.bid o (l'.bid o a).2).2 := by
  intro o p a b l l'
  have hrow : a.row 0 = b.row 2 := by decide
  have hgroups : l.group % a.height ≠ l'.group % a.height := by decide
  have hfive : (p.execute .scalar o 1 a 0).1 = 5.0 := by decide +kernel
  have hthree : (l'.bid o a).1 = 3.0 := by decide +kernel
  obtain ⟨hexecute, -, hbids, -⟩ := execute_isolated
  have hanswer := (hexecute p .scalar o 1 a b 0 2 hrow).1
  obtain ⟨-, hsecond, hbank⟩ := hbids l l' o o a hgroups
  exact ⟨hrow, hfive, hanswer.symm.trans hfive, hthree, hgroups, hsecond.trans hthree, hbank⟩

end TangledPrograms
