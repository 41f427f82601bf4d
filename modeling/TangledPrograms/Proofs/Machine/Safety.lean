import TangledPrograms.Proofs.Machine.Block

/-!
# Safety of the machine

Whatever the code, the input, the shape and the group are, the run on flat memory meets no fault and
arrives where the run on grids arrives. The registers hold finite numbers all the way, and so does
every place of the bank that has been written.
-/

namespace TangledPrograms.Machine

open Flat

namespace Scalar

def State.memory (s : State) (written : List Nat) : Flat.Scalar.Memory :=
  ⟨s.registers, s.bank.block, written⟩

theorem remainder_eq {a b : Nat} (h : 0 < b) : remainder a b = .ok (a % b) :=
  if_neg (Nat.ne_of_gt h)

theorem read_register (s : State) (i : Nat) :
    Flat.read s.registers (i % s.registers.size) = .ok (s.register i) :=
  dif_pos (Nat.mod_lt _ s.registers_pos)

theorem readInput_checked (input : Array Float) (i : Nat) :
    Flat.Scalar.readInput input i = .ok (readInput input i) := by
  simp only [Flat.Scalar.readInput, readInput]
  by_cases h : 0 < input.size
  · have hne : input.isEmpty = false := by simpa [Array.isEmpty] using h.ne'
    simp only [hne, h, dite_true, remainder_eq h]
    exact dif_pos (Nat.mod_lt _ h)
  · have he : input.isEmpty = true := by simpa [Array.isEmpty] using h
    simp only [he, h, dite_false]
    rfl

theorem source_checked (input : Array Float) (group : Nat) (s : State) (w : List Nat)
    (i : Instruction) :
    Flat.Scalar.source input group (s.memory w) i = .ok (source input group s i) := by
  simp only [Flat.Scalar.source, source]
  split
  · exact readInput_checked input _
  · split
    · simp only [State.memory, Grid.offset_block]
      exact s.bank.read_block group _
    · simp only [State.memory, remainder_eq s.registers_pos]
      exact read_register s _

def State.Finite (s : State) : Prop := ∀ x ∈ s.registers, x.isFinite = true

theorem State.Finite.setRegister {s : State} (h : s.Finite) (i : Nat) (x : Float) :
    (s.setRegister i (normalize x)).Finite := by
  intro y hy
  rcases Array.mem_or_eq_of_mem_set (w := (s.registerIndex i).isLt) hy with hy | rfl
  · exact h y hy
  · exact Number.isFinite_normalize x

theorem step_checked (input : Array Float) (group : Nat) {before : Block} {s : State} {w : List Nat}
    (hs : s.Finite) (hw : WritesFinite before s.bank.block w) (i : Instruction) :
    ∃ w', Flat.Scalar.step input group (s.memory w) i = .ok ((step input group s i).memory w') ∧
      (step input group s i).Finite ∧ WritesFinite before (step input group s i).bank.block w' := by
  simp only [Flat.Scalar.step, step, destination, write]
  rw [source_checked]
  by_cases hd : i.writesShared
  · simp only [hd, if_true, State.memory, Grid.offset_block, bind, Except.bind, Grid.read_block]
    cases apply (.ofCode i.opcode) (s.bank.get group i.dest.toNat) (source input group s i) with
    | none => exact ⟨w, rfl, hs, hw⟩
    | some x =>
      simp only [Grid.set_block]
      exact ⟨_, rfl, hs, hw.set group i.dest.toNat x⟩
  · simp only [hd, Bool.false_eq_true, if_false, State.memory, remainder_eq s.registers_pos, bind,
      Except.bind, read_register]
    cases apply (.ofCode i.opcode) (s.register i.dest.toNat) (source input group s i) with
    | none => exact ⟨w, rfl, hs, hw⟩
    | some x =>
      simp only [Flat.write, Nat.mod_lt _ s.registers_pos, dite_true]
      exact ⟨w, rfl, hs.setRegister _ x, hw⟩

theorem run_checked (input : Array Float) (group : Nat) {before : Block} :
    ∀ (code : List Instruction) {s : State} {w : List Nat}, s.Finite →
      WritesFinite before s.bank.block w →
      ∃ w', code.foldlM (Flat.Scalar.step input group) (s.memory w) =
          .ok ((code.foldl (step input group) s).memory w') ∧
        (code.foldl (step input group) s).Finite ∧
        WritesFinite before (code.foldl (step input group) s).bank.block w'
  | [], s, w, hs, hw => ⟨w, rfl, hs, hw⟩
  | i :: code, s, w, hs, hw => by
    obtain ⟨w₁, h₁, hs₁, hw₁⟩ := step_checked input group hs hw i
    obtain ⟨w₂, h₂, hs₂, hw₂⟩ := run_checked input group code hs₁ hw₁
    refine ⟨w₂, ?_, hs₂, hw₂⟩
    rw [List.foldlM_cons, h₁]
    exact h₂

theorem finite_start (count : Nat) (bank : Bank) : (start count bank).Finite := by
  intro x hx
  rw [(Array.mem_replicate.1 hx).2]
  exact Number.isFinite_zero

theorem execute_checked (input registers : Array Float) (code : List Instruction) (bank : Bank)
    (group : Nat) :
    let r := execute input registers.size code bank group
    ∃ w, Flat.Scalar.execute input registers code bank.block group =
        .ok (r.answer, ⟨r.registers, r.bank.block, w⟩) ∧
      r.answer.isFinite = true ∧ (∀ x ∈ r.registers, x.isFinite = true) ∧
      WritesFinite bank.block r.bank.block w := by
  intro r
  by_cases h : registers.size = 0
  · have hr : r = ⟨0.0, #[], bank⟩ := if_pos h
    obtain rfl : registers = #[] := Array.eq_empty_of_size_eq_zero h
    rw [hr]
    exact ⟨[], rfl, Number.isFinite_zero, by simp, .start _⟩
  · obtain ⟨w, hrun, hfin, hw⟩ :=
      run_checked input group code (finite_start registers.size bank) (.start bank.block)
    have hr : r = _ := if_neg h
    have he : registers.isEmpty = false := by simpa [Array.isEmpty] using h
    have hclear : registers.map (fun _ => (0.0 : Float)) = (start registers.size bank).registers := by
      simp [start, Nat.max_eq_left (Nat.pos_of_ne_zero h), Array.map_const']
    rw [hr]
    refine ⟨w, ?_, ?_, hfin, hw⟩
    · rw [Flat.Scalar.execute, he, hclear]
      have h₀ := read_register (run input registers.size code bank group) 0
      rw [Nat.zero_mod] at h₀
      change (code.foldlM (Flat.Scalar.step input group)
        ((start registers.size bank).memory [])).bind _ = _
      rw [hrun]
      change (Flat.read (run input registers.size code bank group).registers 0).bind _ = _
      rw [h₀]
      rfl
    · exact hfin _ (Array.getElem_mem _)

end Scalar
namespace Vector

def State.memory (s : State) (written : List Nat) : Flat.Vector.Memory :=
  ⟨s.file.block, s.bank.block, written⟩

theorem fitShape_eq {input : Array Float} {shape : Nat × Nat} {m : Matrix}
    (h : Matrix.ofEntries? input shape = some m) :
    Flat.Vector.fitShape input.size shape = (m.rows, m.cols) ∧ input = m.entries := by
  simp only [Matrix.ofEntries?] at h
  simp only [Flat.Vector.fitShape]
  split at h
  · rename_i hpos
    split at h <;> cases h
    · rename_i hs
      rw [if_neg (by omega)]
      exact ⟨rfl, rfl⟩
    · rename_i hs
      rw [if_pos (by omega), Nat.max_eq_left hpos]
      exact ⟨rfl, rfl⟩
  · cases h

theorem bitLength_eq (d : CellDecoder) : Flat.Vector.bitLength (d.cols - 1) = d.columnBits := by
  have := d.cols_pos
  simp only [Flat.Vector.bitLength, CellDecoder.columnBits]
  by_cases h : d.cols = 1
  · rw [if_pos (by omega), if_pos h]
  · rw [if_neg (by omega), if_neg h]

theorem ofShape_checked (rows cols : Nat) :
    Flat.Vector.Decoder.ofShape rows cols =
      .ok ⟨max rows 1, max cols 1, (CellDecoder.ofShape rows cols).columnBits⟩ := by
  have h : ¬ max cols 1 < 1 := by omega
  rw [← bitLength_eq]
  simp [Flat.Vector.Decoder.ofShape, difference, h, CellDecoder.ofShape, bind, Except.bind, pure,
    Except.pure]

theorem decode_checked (d : CellDecoder) (source : UInt32) :
    Flat.Vector.Decoder.decode ⟨d.rows, d.cols, d.columnBits⟩ source =
      .ok ((d.decode source).1.val, (d.decode source).2.val) := by
  have h : ¬ 1 <<< d.columnBits < 1 := by
    have := Nat.two_pow_pos d.columnBits
    rw [Nat.one_shiftLeft]
    omega
  have hmask : source.toNat &&& 1 <<< d.columnBits - 1 = source.toNat % 1 <<< d.columnBits := by
    rw [Nat.one_shiftLeft, Nat.and_two_pow_sub_one_eq_mod]
  simp only [Flat.Vector.Decoder.decode, difference, h, if_false, bind, Except.bind,
    Scalar.remainder_eq d.rows_pos, Scalar.remainder_eq d.cols_pos, hmask]
  rfl

theorem mapM_checked {α β : Type} {f : α → Checked β} {g : α → β} :
    ∀ {xs : List α}, (∀ a ∈ xs, f a = .ok (g a)) → xs.mapM f = .ok (xs.map g)
  | [], _ => rfl
  | a :: xs, h => by
    rw [List.mapM_cons, h a List.mem_cons_self,
      mapM_checked fun b hb => h b (List.mem_cons_of_mem _ hb)]
    rfl

theorem read_entry (m : Matrix) (r : Fin m.rows) (c : Fin m.cols) :
    Flat.read m.entries (r.val * m.cols + c.val) = .ok (m.entry r c) := by
  simp only [Flat.read, Matrix.entry]
  split
  · rfl
  · rename_i h
    refine absurd ?_ h
    rw [m.size_entries]
    calc r.val * m.cols + c.val < r.val * m.cols + m.cols := Nat.add_lt_add_left c.isLt _
      _ = (r.val + 1) * m.cols := (Nat.succ_mul _ _).symm
      _ ≤ m.rows * m.cols := Nat.mul_le_mul_right _ r.isLt

theorem columnSlice_checked (m : Matrix) (r : Fin m.rows) (c : Fin m.cols) (width : Nat) :
    ((List.range width).mapM fun k =>
      if k < m.rows - r.val then Flat.read m.entries ((r.val + k) * m.cols + c.val)
      else (.ok 0.0 : Checked Float)) = .ok (m.columnSlice r c width).toList := by
  have h : ∀ k ∈ List.range width,
      (if k < m.rows - r.val then Flat.read m.entries ((r.val + k) * m.cols + c.val)
        else (.ok 0.0 : Checked Float)) =
      .ok (if h : r.val + k < m.rows then m.entry ⟨r.val + k, h⟩ c else 0.0) := by
    intro k _
    by_cases hk : r.val + k < m.rows
    · rw [dif_pos hk, if_pos (by omega)]
      exact read_entry m ⟨r.val + k, hk⟩ c
    · rw [dif_neg hk, if_neg (by omega)]
  rw [mapM_checked h]
  congr 1
  apply List.ext_getElem <;> simp [Matrix.columnSlice]

theorem rowSlice_checked (m : Matrix) (r : Fin m.rows) (c : Fin m.cols) (width : Nat) :
    ∃ rest, part m.entries (r.val * m.cols + c.val) ((r.val + 1) * m.cols) = .ok rest ∧
      Array.ofFn (fun k : Fin width => rest[k]?.getD 0.0) = m.rowSlice r c width := by
  have hr : (r.val + 1) * m.cols ≤ m.rows * m.cols := Nat.mul_le_mul_right _ r.isLt
  have hc := c.isLt
  have hsucc : (r.val + 1) * m.cols = r.val * m.cols + m.cols := Nat.succ_mul ..
  have hsize := m.size_entries
  refine ⟨_, if_pos ⟨by omega, by omega⟩, ?_⟩
  simp only [Matrix.rowSlice]
  congr 1
  funext k
  change (m.entries.extract _ _)[k.val]?.getD 0.0 = _
  rw [Array.getElem?_extract]
  by_cases hk : c.val + k.val < m.cols
  · have hread := read_entry m r ⟨c.val + k.val, hk⟩
    rw [Flat.read] at hread
    split at hread
    · rename_i hlt
      rw [if_pos (by omega), dif_pos hk, Nat.add_assoc, Array.getElem?_eq_getElem hlt]
      exact Except.ok.inj hread
    · cases hread
  · rw [if_neg (by omega), dif_neg hk]
    rfl

theorem slice_matrix (m : Matrix) (width : Nat) (i : Instruction) :
    Flat.Vector.slice m.entries m.cols ⟨m.rows, m.cols, m.decoder.columnBits⟩ width i =
      .ok (slice (some m) width i) := by
  have hpos : 0 < m.rows * m.cols := Nat.mul_pos m.rows_pos m.cols_pos
  have he : m.entries.isEmpty = false := by
    have : m.entries.size ≠ 0 := m.size_entries ▸ hpos.ne'
    simpa [Array.isEmpty] using this
  have hcols : m.cols ≠ 0 := Nat.ne_of_gt m.cols_pos
  have hrows : quotient m.entries.size m.cols = .ok m.rows := by
    rw [quotient, if_neg hcols, m.size_entries, Nat.mul_div_cancel _ m.cols_pos]
  have hdecode := decode_checked m.decoder i.source
  simp only [Flat.Vector.slice, he, Bool.false_eq_true, if_false, slice]
  generalize m.decoder.decode i.source = cell at hdecode ⊢
  obtain ⟨r, c⟩ := cell
  change (Except.bind _ _) = _
  have hd : (⟨m.rows, m.cols, m.decoder.columnBits⟩ : Flat.Vector.Decoder) =
    ⟨m.decoder.rows, m.decoder.cols, m.decoder.columnBits⟩ := rfl
  rw [hd, hdecode]
  split
  · have hdiff : difference m.rows r.val = .ok (m.rows - r.val) := if_neg (Nat.lt_asymm r.isLt)
    have hcolumn := columnSlice_checked m r c width
    simp only [Except.bind, bind, hrows, hdiff, hcolumn, pure, Except.pure, Array.toArray_toList]
  · obtain ⟨rest, hpart, hrest⟩ := rowSlice_checked m r c width
    simp only [Except.bind, bind, hrows, hpart, pure, Except.pure, hrest]

theorem slice_checked (input : Array Float) (shape : Nat × Nat) :
    let fit := Flat.Vector.fitShape input.size shape
    ∃ d, Flat.Vector.Decoder.ofShape fit.1 fit.2 = .ok d ∧ ∀ i width,
      Flat.Vector.slice input fit.2 d width i =
        .ok (slice (Matrix.ofEntries? input shape) width i) := by
  intro fit
  refine ⟨_, ofShape_checked fit.1 fit.2, fun i width => ?_⟩
  cases hm : Matrix.ofEntries? input shape with
  | none =>
    have he : input.isEmpty = true := by
      simp only [Matrix.ofEntries?] at hm
      split at hm
      · split at hm <;> cases hm
      · simpa [Array.isEmpty] using ‹¬ 0 < input.size›
    simp only [Flat.Vector.slice, he, if_true]
    rfl
  | some m =>
    obtain ⟨hfit, rfl⟩ := fitShape_eq hm
    have hfit' : fit = (m.rows, m.cols) := hfit
    have hd : CellDecoder.ofShape m.rows m.cols = m.decoder := by
      simp only [CellDecoder.ofShape, Nat.max_eq_left m.rows_pos, Nat.max_eq_left m.cols_pos]
      rfl
    rw [hfit', hd, Nat.max_eq_left m.rows_pos, Nat.max_eq_left m.cols_pos]
    exact slice_matrix m width i

theorem bestPlaceFrom_checked (better : Float → Float → Bool) {xs : Array Float} :
    ∀ (rest before : List Float) {best : Nat} {top : Float}, xs.toList = before ++ rest →
      Flat.read xs best = .ok top →
      (rest.zipIdx before.length).foldlM
        (fun best e => do if better e.1 (← Flat.read xs best) then pure e.2 else pure best) best =
        (.ok (bestPlaceFrom better best top before.length rest) : Checked Nat)
  | [], _, _, _, _, _ => rfl
  | x :: rest, before, best, top, hxs, hbest => by
    have hx : Flat.read xs before.length = .ok x := by
      have hget : xs[before.length]? = some x := by
        rw [← Array.getElem?_toList, hxs, List.getElem?_append_right (Nat.le_refl _)]
        simp
      obtain ⟨h, rfl⟩ := Array.getElem?_eq_some_iff.1 hget
      exact dif_pos h
    have hsplit : xs.toList = (before ++ [x]) ++ rest := by simp [hxs]
    have hlen : (before ++ [x]).length = before.length + 1 := by simp
    rw [List.zipIdx_cons, List.foldlM_cons, hbest, bestPlaceFrom, ← hlen]
    cases h : better x top
    · simpa [bind, Except.bind, h, pure, Except.pure] using
        bestPlaceFrom_checked better rest (before ++ [x]) hsplit hbest
    · simpa [bind, Except.bind, h, pure, Except.pure] using
        bestPlaceFrom_checked better rest (before ++ [x]) hsplit hx

theorem bestPlace_checked (better : Float → Float → Bool) (xs : Array Float) :
    Flat.Vector.bestPlace better xs = .ok (bestPlace better xs.toList) := by
  simp only [Flat.Vector.bestPlace]
  cases hxs : xs.toList with
  | nil => rfl
  | cons x rest =>
    have hx : Flat.read xs 0 = .ok x := by
      have hget : xs[0]? = some x := by rw [← Array.getElem?_toList, hxs]; rfl
      obtain ⟨h, rfl⟩ := Array.getElem?_eq_some_iff.1 hget
      exact dif_pos h
    exact bestPlaceFrom_checked better rest [x] hxs hx

theorem reduce_checked (op : ReduceOp) (x y : Array Float) :
    Flat.Vector.reduce op x y = .ok (reduce op x.toList y.toList) := by
  cases op <;> simp only [Flat.Vector.reduce, bestPlace_checked] <;> rfl

def State.Finite (s : State) : Prop := ∀ i j, (s.file.get i j).isFinite = true

theorem isFinite_element {op : VectorOp} {y : Array Float} {k : Nat} {x : Float}
    (hx : x.isFinite = true) : (element op y k x).isFinite = true := by
  simp only [element]
  split
  · exact hx
  · rename_i yk _
    cases apply op x yk with
    | none => exact hx
    | some z => exact Number.isFinite_normalize z

theorem source_checked {input : Array Float} {shape : Nat × Nat} {d : Flat.Vector.Decoder}
    {cols : Nat} (s : State) (w : List Nat) (i : Instruction)
    (hslice : ∀ width, Flat.Vector.slice input cols d width i =
      .ok (slice (Matrix.ofEntries? input shape) width i)) :
    Flat.Vector.source input cols d (s.memory w) i =
      .ok (source (Matrix.ofEntries? input shape) s i) := by
  simp only [Flat.Vector.source, source]
  split
  · exact hslice _
  · simp [State.memory, Grid.row_block, bind, Except.bind, pure, Except.pure]

section

variable {input : Array Float} {shape : Nat × Nat} {d : Flat.Vector.Decoder} {cols : Nat}
  (hslice : ∀ i width, Flat.Vector.slice input cols d width i =
    .ok (slice (Matrix.ofEntries? input shape) width i))
  (group : Nat) {before : Block}
include hslice

theorem step_checked {s : State} {w : List Nat} (hs : s.Finite)
    (hw : WritesFinite before s.bank.block w) (i : Instruction) :
    let s' := step (Matrix.ofEntries? input shape) group s i
    ∃ w', Flat.Vector.step input cols d group (s.memory w) i = .ok (s'.memory w') ∧
      s'.Finite ∧ WritesFinite before s'.bank.block w' := by
  intro s'
  simp only [s']
  simp only [Flat.Vector.step, step]
  rw [source_checked s w i (hslice i)]
  by_cases hd : i.writesShared
  · simp only [hd, if_true, State.memory, Grid.row_block, reduce_checked, bind, Except.bind]
    cases reduce (.ofCode i.opcode) (s.file.row i.dest.toNat).toList
        (source (Matrix.ofEntries? input shape) s i).toList with
    | none => exact ⟨w, rfl, hs, hw⟩
    | some x =>
      simp only [Grid.offset_block, Grid.set_block]
      exact ⟨_, rfl, hs, hw.set group i.dest.toNat x⟩
  · simp only [hd, Bool.false_eq_true, if_false, State.memory, Grid.mapRow_block, bind, Except.bind]
    refine ⟨w, rfl, fun a b => ?_, hw⟩
    rw [Grid.get_mapRow]
    split
    · exact isFinite_element (hs a b)
    · exact hs a b

theorem run_checked : ∀ (code : List Instruction) {s : State} {w : List Nat}, s.Finite →
    WritesFinite before s.bank.block w →
    let s' := code.foldl (step (Matrix.ofEntries? input shape) group) s
    ∃ w', code.foldlM (Flat.Vector.step input cols d group) (s.memory w) = .ok (s'.memory w') ∧
      s'.Finite ∧ WritesFinite before s'.bank.block w'
  | [], s, w, hs, hw => ⟨w, rfl, hs, hw⟩
  | i :: code, s, w, hs, hw => by
    obtain ⟨w₁, h₁, hs₁, hw₁⟩ := step_checked hslice group hs hw i
    obtain ⟨w₂, h₂, hs₂, hw₂⟩ := run_checked code hs₁ hw₁
    refine ⟨w₂, ?_, hs₂, hw₂⟩
    rw [List.foldlM_cons, h₁]
    exact h₂

end

theorem execute_checked (input : Array Float) (shape : Nat × Nat) (file : Grid)
    (code : List Instruction) (bank : Bank) (group : Nat) :
    let r := run input shape file.height file.width code bank group
    ∃ w, Flat.Vector.execute input shape file.block code bank.block group =
        .ok (r.answer, ⟨r.file.block, r.bank.block, w⟩) ∧
      r.answer.isFinite = true ∧ (∀ x ∈ r.file.block.values, x.isFinite = true) ∧
      WritesFinite bank.block r.bank.block w := by
  intro r
  obtain ⟨d, hd, hslice⟩ := slice_checked input shape
  have hzeros : (Grid.zeros file.height file.width).block = file.block.reset :=
    (Grid.reset_block file).symm
  obtain ⟨w, hrun, hfin, hw⟩ := run_checked hslice group
    (s := ⟨Grid.zeros file.height file.width, bank⟩) code
    (fun i j => by rw [Grid.get_zeros]; exact Number.isFinite_zero) (.start bank.block)
  refine ⟨w, ?_, hfin 0 0, ?_, hw⟩
  · rw [State.memory, hzeros] at hrun
    simp only [Flat.Vector.execute]
    simp only [hd, hrun, bind, Except.bind]
    have h₀ := Grid.getElem?_row r.file 0 0
    rw [Nat.zero_mod] at h₀
    obtain ⟨hsize, hget⟩ := Array.getElem?_eq_some_iff.1 h₀
    have hread : Flat.read (r.file.row 0) 0 = .ok (r.file.get 0 0) :=
      (dif_pos hsize).trans (congrArg _ hget)
    change (r.file.block.row 0).bind _ = _
    rw [Grid.row_block]
    change (Flat.read (r.file.row 0) 0).bind _ = _
    rw [hread]
    rfl
  · intro x hx
    obtain ⟨k, hk⟩ := Array.mem_iff_getElem?.1 hx
    have hlt : k < r.file.height * r.file.width := by
      rw [← r.file.size_block]
      exact (Array.getElem?_eq_some_iff.1 hk).1
    rw [r.file.exists_place hlt, r.file.getElem?_place] at hk
    cases hk
    exact hfin _ _

end Vector

/-- Both modes run without a fault on flat memory, whatever the code, the input, the shape, the
registers, the bank and the group are. They end where the runs on grids end; the answer, the registers
and every written place of the bank are finite, the other places are as before, and a finite bank
stays finite. -/
theorem execute_safe (code : List Instruction) (input : Array Float) (bank : Bank) (group : Nat) :
    (∀ registers : Array Float,
      let r := Scalar.execute input registers.size code bank group
      ∃ written, Flat.Scalar.execute input registers code bank.block group =
          .ok (r.answer, ⟨r.registers, r.bank.block, written⟩) ∧
        r.answer.isFinite = true ∧ (∀ x ∈ r.registers, x.isFinite = true) ∧
        WritesFinite bank.block r.bank.block written ∧
        ((∀ x ∈ bank.block.values, x.isFinite = true) →
          ∀ x ∈ r.bank.block.values, x.isFinite = true)) ∧
    (∀ (shape : Nat × Nat) (file : Grid),
      let r := Vector.run input shape file.height file.width code bank group
      ∃ written, Flat.Vector.execute input shape file.block code bank.block group =
          .ok (r.answer, ⟨r.file.block, r.bank.block, written⟩) ∧
        r.answer.isFinite = true ∧ (∀ x ∈ r.file.block.values, x.isFinite = true) ∧
        WritesFinite bank.block r.bank.block written ∧
        ((∀ x ∈ bank.block.values, x.isFinite = true) →
          ∀ x ∈ r.bank.block.values, x.isFinite = true)) := by
  constructor
  · intro registers r
    obtain ⟨w, hrun, hanswer, hregisters, hw⟩ :=
      Scalar.execute_checked input registers code bank group
    exact ⟨w, hrun, hanswer, hregisters, hw, hw.allFinite⟩
  · intro shape file r
    obtain ⟨w, hrun, hanswer, hfile, hw⟩ :=
      Vector.execute_checked input shape file code bank group
    exact ⟨w, hrun, hanswer, hfile, hw, hw.allFinite⟩

end TangledPrograms.Machine
