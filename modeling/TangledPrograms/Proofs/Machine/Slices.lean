import TangledPrograms.Proofs.Machine.Safety
import TangledPrograms.Proofs.Views

/-!
# Slices of an observation

The matrix view of an observation folds the leading axes into the row and keeps the last as the
column. A slice is loaded into a buffer that every instruction uses again. The buffer is cleared
first, and then the numbers up to the edge of the matrix or the end of the buffer are written, so
that it holds the slice and nothing that an earlier instruction left there.
-/

namespace TangledPrograms

open Machine

namespace Observation

variable (o : Observation)

/-- The entry of the matrix view: the row is a coordinate of the leading axes, the column one of the
last. -/
def cell? (row col : ℕ) : Option Float := o.entry? (coordinates o.shape.dropLast row ++ [col])

theorem shape_eq : o.shape = o.shape.dropLast ++ [o.rowsCols.2] :=
  (List.dropLast_append_getLast o.shape_ne_nil).symm

theorem cols_pos : 0 < o.rowsCols.2 := o.axis_pos _ (List.getLast_mem o.shape_ne_nil)

theorem volume_leading : volume o.shape.dropLast * o.rowsCols.2 = o.values.size := by
  rw [← volume_concat, ← shape_eq, o.volume_shape]

theorem rows_eq : o.rowsCols.1 = volume o.shape.dropLast := by
  change o.values.size / o.rowsCols.2 = _
  rw [← volume_leading, Nat.mul_div_cancel _ o.cols_pos]

theorem rows_mul_cols : o.rowsCols.1 * o.rowsCols.2 = o.values.size := by
  rw [rows_eq, volume_leading]

theorem rows_pos : 0 < o.rowsCols.1 :=
  Nat.pos_of_mul_pos_right (o.rows_mul_cols ▸ o.size_pos)

def matrix : Matrix where
  rows := o.rowsCols.1
  cols := o.rowsCols.2
  entries := o.values
  rows_pos := o.rows_pos
  cols_pos := o.cols_pos
  size_entries := o.rows_mul_cols.symm

theorem ofEntries?_eq : Matrix.ofEntries? o.values o.rowsCols = some o.matrix := by
  rw [Matrix.ofEntries?, dif_pos o.size_pos, dif_pos ⟨o.rows_pos, o.cols_pos, o.rows_mul_cols.symm⟩]
  rfl

/-- The view describes the numbers, so none but it is ever taken. -/
theorem fitShape_rowsCols : Flat.Vector.fitShape o.values.size o.rowsCols = o.rowsCols :=
  (Vector.fitShape_eq o.ofEntries?_eq).1

theorem ofShape_rowsCols : CellDecoder.ofShape o.rowsCols.1 o.rowsCols.2 = o.matrix.decoder := by
  simp only [CellDecoder.ofShape, Nat.max_eq_left o.rows_pos, Nat.max_eq_left o.cols_pos]
  rfl

theorem cell?_eq_entry (r : Fin o.matrix.rows) (c : Fin o.matrix.cols) :
    o.cell? r c = some (o.matrix.entry r c) := by
  have hrow : r.val < volume o.shape.dropLast := o.rows_eq ▸ r.isLt
  have hlength := (within_coordinates hrow).length_eq
  have hplace : place o.shape (coordinates o.shape.dropLast r ++ [c.val]) =
      r.val * o.matrix.cols + c.val := by
    rw [o.shape_eq, List.dropLast_concat, place_concat _ _ hlength, place_coordinates hrow]
    rfl
  have hread := Vector.read_entry o.matrix r c
  rw [Flat.read] at hread
  split at hread
  · rename_i hlt
    rw [cell?, entry?, hplace]
    exact (Array.getElem?_eq_getElem hlt).trans (congrArg some (Except.ok.inj hread))
  · cases hread

end Observation

namespace Machine.Flat

/-- Writes the first `n` numbers, one after the other. -/
def fill (n : ℕ) (f : ℕ → Checked Float) (out : Array Float) : Checked (Array Float) :=
  (List.range n).foldlM (fun out k => do write out k (← f k)) out

/-- As long as the numbers can be had and there is room for them, they stand in the first places and
the other places are as before. -/
theorem fill_eq {n : ℕ} {f : ℕ → Checked Float} {g : ℕ → Float} {out : Array Float}
    (h : ∀ k < n, f k = .ok (g k)) (hn : n ≤ out.size) :
    ∃ filled, fill n f out = .ok filled ∧ filled.size = out.size ∧
      ∀ k, filled[k]? = if k < n then some (g k) else out[k]? := by
  induction n with
  | zero => exact ⟨out, rfl, rfl, fun _ => rfl⟩
  | succ n ih =>
    have hbefore : ∀ k < n, f k = .ok (g k) := fun k hk => h k (Nat.lt_succ_of_lt hk)
    obtain ⟨filled, hfill, hsize, hget⟩ := ih hbefore (Nat.le_of_lt hn)
    have hlt : n < filled.size := hsize ▸ hn
    refine ⟨filled.set n (g n) hlt, ?_, ?_, fun k => ?_⟩
    · have hwrite : write filled n (g n) = .ok (filled.set n (g n) hlt) := dif_pos hlt
      rw [fill] at hfill ⊢
      rw [List.range_succ, List.foldlM_append, hfill]
      simp [h n (Nat.lt_succ_self n), hwrite, bind, Except.bind, pure, Except.pure]
    · rw [Array.size_set, hsize]
    · rw [Array.getElem?_set, hget]
      by_cases hk : n = k
      · rw [if_pos hk, if_pos (hk ▸ Nat.lt_succ_self n), hk]
      · have hiff : k < n ↔ k < n + 1 := by omega
        rw [if_neg hk]
        simp only [hiff]

/-- Numbers that are zero from some place on need not be written from there on. -/
theorem fill_cleared {n : ℕ} {f : ℕ → Checked Float} {g : ℕ → Float} {out : Array Float}
    (h : ∀ k < n, f k = .ok (g k)) (hn : n ≤ out.size)
    (hzero : ∀ k, n ≤ k → k < out.size → g k = 0.0) :
    fill n f (out.map fun _ => 0.0) = .ok (Array.ofFn fun k : Fin out.size => g k) := by
  have hsize : (out.map fun _ => (0.0 : Float)).size = out.size := Array.size_map
  obtain ⟨filled, hfill, -, hget⟩ := fill_eq h (hsize ▸ hn)
  rw [hfill]
  congr 1
  apply Array.ext_getElem?
  intro k
  rw [hget, Array.getElem?_map, Array.getElem?_ofFn]
  by_cases hk : k < out.size
  · rw [dif_pos hk, Array.getElem?_eq_getElem hk]
    by_cases hkn : k < n
    · rw [if_pos hkn]
    · rw [if_neg hkn, hzero k (Nat.le_of_not_lt hkn) hk]
      rfl
  · have hkn : ¬ k < n := fun hkn => hk (Nat.lt_of_lt_of_le hkn hn)
    rw [dif_neg hk, if_neg hkn, Array.getElem?_eq_none (Nat.le_of_not_lt hk)]
    rfl

namespace Vector

/-- Puts the numbers along a row or down a column into a buffer, which is cleared first. -/
def load (input : Array Float) (cols : ℕ) (d : Decoder) (i : Instruction) (out : Array Float) :
    Checked (Array Float) := do
  let cleared := out.map fun _ => 0.0
  if input.isEmpty then pure cleared
  else
    let (row, col) ← d.decode i.source
    let rows ← quotient input.size cols
    if i.readsShared then
      let height ← difference rows row
      fill (min height out.size) (fun k => read input ((row + k) * cols + col)) cleared
    else
      let rest ← part input (row * cols + col) ((row + 1) * cols)
      fill (min rest.size out.size) (read rest) cleared

/-- Puts the source of an instruction into a buffer; a register must have the buffer's length. -/
def fetch (input : Array Float) (cols : ℕ) (d : Decoder) (m : Memory) (i : Instruction)
    (out : Array Float) : Checked (Array Float) := do
  if i.readsInput then load input cols d i out
  else
    let row ← m.file.row i.source.toNat
    if row.size = out.size then pure row else .error .outOfRange

def finish (group : ℕ) (m : Memory) (i : Instruction) (y : Array Float) : Checked Memory := do
  if i.writesShared then
    match ← reduce (.ofCode i.opcode) (← m.file.row i.dest.toNat) y with
    | none => pure m
    | some x =>
      let k ← m.bank.offset group i.dest.toNat
      pure { m with bank := ← m.bank.set k (normalize x), written := k :: m.written }
  else
    let file ← m.file.mapRow i.dest.toNat (Machine.Vector.element (.ofCode i.opcode) y)
    pure { m with file }

theorem step_eq (input : Array Float) (cols : ℕ) (d : Decoder) (group : ℕ) (m : Memory)
    (i : Instruction) :
    step input cols d group m i = source input cols d m i >>= finish group m i := rfl

/-- Runs one instruction with the buffer that the instruction before it has left. -/
def stepBuffered (input : Array Float) (cols : ℕ) (d : Decoder) (group : ℕ)
    (s : Memory × Array Float) (i : Instruction) : Checked (Memory × Array Float) := do
  let out ← fetch input cols d s.1 i s.2
  pure (← finish group s.1 i out, out)

/-- Runs instructions on a register file whose contents are cleared first, with one buffer for all
of them. -/
def runBuffered (input : Array Float) (shape : ℕ × ℕ) (file : Block) (code : List Instruction)
    (bank : Block) (group : ℕ) : Checked (Memory × Array Float) := do
  let (rows, cols) := fitShape input.size shape
  let d ← Decoder.ofShape rows cols
  code.foldlM (stepBuffered input cols d group)
    (⟨file.reset, bank, []⟩, Array.replicate file.width 0.0)

end Vector

end Machine.Flat

namespace Machine.Vector

theorem size_source (input? : Option Matrix) (s : State) (i : Instruction) :
    (source input? s i).size = s.file.width := by
  simp only [source]
  split
  · cases input? with
    | none => exact Array.size_replicate
    | some m =>
      simp only [slice]
      split
      · exact Array.size_ofFn
      · exact Array.size_ofFn
  · exact s.file.size_row_eq _

theorem width_file_step (input? : Option Matrix) (group : ℕ) (s : State) (i : Instruction) :
    (step input? group s i).file.width = s.file.width := by
  simp only [step]
  split
  · split <;> rfl
  · rfl

theorem width_file_run (input : Array Float) (shape : ℕ × ℕ) (count width : ℕ)
    (code : List Instruction) (bank : Bank) (group : ℕ) :
    (run input shape count width code bank group).file.width = max width 1 := by
  rw [run]
  generalize hs : (⟨Grid.zeros count width, bank⟩ : State) = s
  have hwidth : s.file.width = max width 1 := hs ▸ Grid.width_zeros count width
  clear hs
  induction code generalizing s with
  | nil => exact hwidth
  | cons i code ih => exact ih _ ((width_file_step ..).trans hwidth)

def flatDecoder (m : Matrix) : Flat.Vector.Decoder := ⟨m.rows, m.cols, m.decoder.columnBits⟩

theorem decode_flatDecoder (m : Matrix) (source : UInt32) : (flatDecoder m).decode source =
    .ok ((m.decoder.decode source).1.val, (m.decoder.decode source).2.val) :=
  decode_checked m.decoder source

theorem load_column (m : Matrix) (r : Fin m.rows) (c : Fin m.cols) (out : Array Float) :
    Flat.fill (min (m.rows - r) out.size) (fun k => Flat.read m.entries ((r + k) * m.cols + c))
      (out.map fun _ => 0.0) = .ok (m.columnSlice r c out.size) := by
  refine Flat.fill_cleared
    (g := fun k => if h : r.val + k < m.rows then m.entry ⟨r.val + k, h⟩ c else 0.0)
    (fun k hk => ?_) (Nat.min_le_right ..) fun k hle hk => ?_
  · have hrow : r.val + k < m.rows := by omega
    rw [dif_pos hrow]
    exact read_entry m ⟨r.val + k, hrow⟩ c
  · have hrow : ¬ r.val + k < m.rows := by omega
    exact dif_neg hrow

theorem load_row (m : Matrix) (r : Fin m.rows) (c : Fin m.cols) (out : Array Float) :
    ∃ rest, Flat.part m.entries (r * m.cols + c) ((r + 1) * m.cols) = .ok rest ∧
      Flat.fill (min rest.size out.size) (Flat.read rest) (out.map fun _ => 0.0) =
        .ok (m.rowSlice r c out.size) := by
  obtain ⟨rest, hpart, hrest⟩ := rowSlice_checked m r c out.size
  refine ⟨rest, hpart, hrest ▸ ?_⟩
  refine Flat.fill_cleared (g := fun k => rest[k]?.getD 0.0) (fun k hk => ?_) (Nat.min_le_right ..)
    fun k hle hk => ?_
  · have hlt : k < rest.size := by omega
    rw [Array.getElem?_eq_getElem hlt]
    exact dif_pos hlt
  · have hle' : rest.size ≤ k := by omega
    rw [Array.getElem?_eq_none hle']
    rfl

/-- Whatever the buffer held, it then holds the slice. -/
theorem load_eq_slice (m : Matrix) (i : Instruction) (out : Array Float) :
    Flat.Vector.load m.entries m.cols (flatDecoder m) i out = .ok (slice (some m) out.size i) := by
  have hpos : 0 < m.entries.size := m.size_entries ▸ Nat.mul_pos m.rows_pos m.cols_pos
  have hinput : m.entries.isEmpty = false := by simpa [Array.isEmpty] using hpos.ne'
  have hrows : Flat.quotient m.entries.size m.cols = .ok m.rows := by
    rw [Flat.quotient, if_neg m.cols_pos.ne', m.size_entries, Nat.mul_div_cancel _ m.cols_pos]
  have hdecode := decode_flatDecoder m i.source
  simp only [Flat.Vector.load, hinput, Bool.false_eq_true, if_false, slice]
  generalize m.decoder.decode i.source = cell at hdecode ⊢
  obtain ⟨r, c⟩ := cell
  rw [hdecode]
  split
  · have hheight : Flat.difference m.rows r.val = .ok (m.rows - r.val) :=
      if_neg (Nat.lt_asymm r.isLt)
    have hcolumn := load_column m r c out
    simp only [bind, Except.bind, hrows, hheight, hcolumn]
  · obtain ⟨rest, hpart, hrow⟩ := load_row m r c out
    simp only [bind, Except.bind, hrows, hpart, hrow]

section

variable (o : Observation) (group : ℕ) {before : Flat.Block} {s : State} {w : List ℕ}
  {out : Array Float}

theorem slice_view (i : Instruction) (width : ℕ) :
    Flat.Vector.slice o.values o.rowsCols.2 (flatDecoder o.matrix) width i =
      .ok (slice (Matrix.ofEntries? o.values o.rowsCols) width i) := by
  rw [o.ofEntries?_eq]
  exact slice_matrix o.matrix width i

theorem fetch_eq_source (hout : out.size = s.file.width) (i : Instruction) :
    Flat.Vector.fetch o.values o.rowsCols.2 (flatDecoder o.matrix) (s.memory w) i out =
      .ok (source (Matrix.ofEntries? o.values o.rowsCols) s i) := by
  simp only [Flat.Vector.fetch, source]
  split
  · rw [o.ofEntries?_eq, ← hout]
    exact load_eq_slice o.matrix i out
  · simp [State.memory, Grid.row_block, hout, bind, Except.bind, pure, Except.pure]

/-- The buffer's contents have no part in what an instruction does, and afterwards it holds the
instruction's source. -/
theorem stepBuffered_checked (hs : s.Finite) (hw : WritesFinite before s.bank.block w)
    (hout : out.size = s.file.width) (i : Instruction) :
    let input? := Matrix.ofEntries? o.values o.rowsCols
    let s' := step input? group s i
    ∃ w', Flat.Vector.stepBuffered o.values o.rowsCols.2 (flatDecoder o.matrix) group
        (s.memory w, out) i = .ok (s'.memory w', source input? s i) ∧
      s'.Finite ∧ WritesFinite before s'.bank.block w' := by
  obtain ⟨w', hstep, hrest⟩ := step_checked (slice_view o) group hs hw i
  refine ⟨w', ?_, hrest⟩
  rw [Flat.Vector.step_eq, source_checked s w i (slice_view o i)] at hstep
  have hfinish : Flat.Vector.finish group (s.memory w) i
      (source (Matrix.ofEntries? o.values o.rowsCols) s i) = _ := hstep
  simp only [Flat.Vector.stepBuffered, fetch_eq_source o hout]
  simp only [bind, Except.bind, hfinish, pure, Except.pure]

theorem runBuffered_checked (code : List Instruction) (hs : s.Finite)
    (hw : WritesFinite before s.bank.block w) (hout : out.size = s.file.width) :
    let s' := code.foldl (step (Matrix.ofEntries? o.values o.rowsCols) group) s
    ∃ w' out',
      code.foldlM (Flat.Vector.stepBuffered o.values o.rowsCols.2 (flatDecoder o.matrix) group)
        (s.memory w, out) = .ok (s'.memory w', out') ∧
      s'.Finite ∧ WritesFinite before s'.bank.block w' ∧ out'.size = s'.file.width := by
  induction code generalizing s w out with
  | nil => exact ⟨w, out, rfl, hs, hw, hout⟩
  | cons i code ih =>
    obtain ⟨w₁, h₁, hs₁, hw₁⟩ := stepBuffered_checked o group hs hw hout i
    have hsize := (size_source (Matrix.ofEntries? o.values o.rowsCols) s i).trans
      (width_file_step (Matrix.ofEntries? o.values o.rowsCols) group s i).symm
    obtain ⟨w₂, out₂, h₂, hrest⟩ := ih hs₁ hw₁ hsize
    refine ⟨w₂, out₂, ?_, hrest⟩
    rw [List.foldlM_cons, h₁]
    exact h₂

end

variable (o : Observation) (file : Grid) (bank : Bank) (group : ℕ)

/-- A run with one buffer for all sources ends where the run ends, with the last instruction's
source in the buffer. -/
theorem runBuffered_eq (before : List Instruction) (i : Instruction) :
    let r := run o.values o.rowsCols file.height file.width
    ∃ w, Flat.Vector.runBuffered o.values o.rowsCols file.block (before ++ [i]) bank.block group =
      .ok ((r (before ++ [i]) bank group).memory w,
        source (Matrix.ofEntries? o.values o.rowsCols) (r before bank group) i) := by
  intro r
  have hzeros : (Grid.zeros file.height file.width).block = file.block.reset :=
    (Grid.reset_block file).symm
  have hwidth : max file.width 1 = file.width := Nat.max_eq_left file.width_pos
  let start : State := ⟨.zeros file.height file.width, bank⟩
  have hfinite : start.Finite := fun i j => by
    rw [Grid.get_zeros]
    exact Number.isFinite_zero
  have hsize : (Array.replicate file.width (0.0 : Float)).size = start.file.width :=
    Array.size_replicate.trans hwidth.symm
  obtain ⟨w, out, hrun, hs, hw, hout⟩ :=
    runBuffered_checked o group before hfinite (.start bank.block) hsize
  obtain ⟨w', hstep, -⟩ := stepBuffered_checked o group hs hw hout i
  refine ⟨w', ?_⟩
  rw [State.memory, hzeros] at hrun
  simp only [Flat.Vector.runBuffered, o.fitShape_rowsCols, ofShape_checked, o.ofShape_rowsCols,
    Nat.max_eq_left o.rows_pos, Nat.max_eq_left o.cols_pos]
  change (before ++ [i]).foldlM (Flat.Vector.stepBuffered _ _ (flatDecoder o.matrix) group) _ = _
  rw [List.foldlM_append, Grid.width_block, hrun]
  simp only [bind, Except.bind, List.foldlM_cons, List.foldlM_nil, hstep, r, run, List.foldl_append,
    List.foldl_cons, List.foldl_nil]
  rfl

/-- The number at a place of the slice that an instruction reads. -/
theorem getElem?_slice {i : Instruction} {width k : ℕ} (hk : k < width) :
    let cell := o.matrix.decoder.decode i.source
    (slice (some o.matrix) width i)[k]? =
      if i.readsShared then
        if cell.1 + k < o.rowsCols.1 then o.cell? (cell.1 + k) cell.2 else some 0.0
      else if cell.2 + k < o.rowsCols.2 then o.cell? cell.1 (cell.2 + k) else some 0.0 := by
  intro cell
  simp only [slice]
  by_cases hshared : i.readsShared
  · rw [if_pos hshared, if_pos hshared]
    refine ((Array.getElem?_ofFn ..).trans (dif_pos hk)).trans ?_
    by_cases hrow : cell.1 + k < o.rowsCols.1
    · rw [if_pos hrow, o.cell?_eq_entry ⟨cell.1 + k, hrow⟩ cell.2]
      exact congrArg some (dif_pos hrow)
    · rw [if_neg hrow]
      exact congrArg some (dif_neg hrow)
  · rw [if_neg hshared, if_neg hshared]
    refine ((Array.getElem?_ofFn ..).trans (dif_pos hk)).trans ?_
    by_cases hcol : cell.2 + k < o.rowsCols.2
    · rw [if_pos hcol, o.cell?_eq_entry cell.1 ⟨cell.2 + k, hcol⟩]
      exact congrArg some (dif_pos hcol)
    · rw [if_neg hcol]
      exact congrArg some (dif_neg hcol)

/-- The matrix view of an observation has a row for each coordinate of the leading axes and a column
for each of the last, it describes all numbers, and the cell that a source leads to lies in it.
Whatever ran before, an instruction that reads the input leaves a vector of the registers' width in
the buffer: from the cell on along its row or down its column, zeros beyond the edge. -/
theorem buffer_holds_slice (before : List Instruction) {i : Instruction}
    (hi : i.readsInput = true) :
    let rows := o.rowsCols.1
    let cols := o.rowsCols.2
    let row := ((CellDecoder.ofShape rows cols).decode i.source).1.val
    let col := ((CellDecoder.ofShape rows cols).decode i.source).2.val
    let r := run o.values o.rowsCols file.height file.width
    o.shape = o.shape.dropLast ++ [cols] ∧ rows = volume o.shape.dropLast ∧
    rows * cols = o.values.size ∧ Flat.Vector.fitShape o.values.size o.rowsCols = (rows, cols) ∧
    row < rows ∧ col < cols ∧
    ∃ v w, Flat.Vector.runBuffered o.values o.rowsCols file.block (before ++ [i]) bank.block group =
        .ok ((r (before ++ [i]) bank group).memory w, v) ∧
      v = source (Matrix.ofEntries? o.values o.rowsCols) (r before bank group) i ∧
      v.size = file.width ∧
      ∀ k < file.width, v[k]? =
        if i.readsShared then if row + k < rows then o.cell? (row + k) col else some 0.0
        else if col + k < cols then o.cell? row (col + k) else some 0.0 := by
  intro rows cols row col r
  have hrow : row = (o.matrix.decoder.decode i.source).1.val :=
    congrArg (fun d : CellDecoder => (d.decode i.source).1.val) o.ofShape_rowsCols
  have hcol : col = (o.matrix.decoder.decode i.source).2.val :=
    congrArg (fun d : CellDecoder => (d.decode i.source).2.val) o.ofShape_rowsCols
  obtain ⟨w, hrun⟩ := runBuffered_eq o file bank group before i
  have hwidth : (r before bank group).file.width = file.width :=
    (width_file_run ..).trans (Nat.max_eq_left file.width_pos)
  have hslice : source (Matrix.ofEntries? o.values o.rowsCols) (r before bank group) i =
      slice (some o.matrix) file.width i := by
    rw [source, if_pos hi, o.ofEntries?_eq, hwidth]
  refine ⟨o.shape_eq, o.rows_eq, o.rows_mul_cols, o.fitShape_rowsCols, ?_, ?_, _, w, hrun, rfl, ?_,
    ?_⟩
  · exact hrow ▸ Fin.isLt _
  · exact hcol ▸ Fin.isLt _
  · rw [size_source, hwidth]
  · intro k hk
    rw [hslice, getElem?_slice o hk, hrow, hcol]

def twelveNumbers : Observation :=
  ⟨#[0, 1, 2, 3, 4, 5, 6, 7, 8, 9, 10, 11], [2, 2, 3], by decide, by decide, rfl⟩

/-- A column that begins in the last row, loaded after a whole row. -/
theorem buffer_holds_slice_reused :
    let row : Instruction := ⟨1, 0, 0, 0, 0, 4⟩
    let column : Instruction := ⟨1, 0, 0, 0, 1, 13⟩
    column.readsInput = true ∧ ∃ v s w,
      Flat.Vector.runBuffered twelveNumbers.values twelveNumbers.rowsCols (Grid.zeros 1 3).block
        [row, column] (Grid.zeros 1 1).block 0 = .ok (State.memory s w, v) ∧
      v.size = 3 ∧ v[0]? = some 10 ∧ v[1]? = some 0.0 ∧ v[2]? = some 0.0 := by
  intro row column
  have hreads : column.readsInput = true := by decide
  obtain ⟨-, -, -, -, -, -, v, w, hrun, -, hsize, hv⟩ :=
    buffer_holds_slice twelveNumbers (Grid.zeros 1 3) (Grid.zeros 1 1) 0 [row] hreads
  have hrow : ((CellDecoder.ofShape 4 3).decode column.source).1.val = 3 := by decide
  have hcol : ((CellDecoder.ofShape 4 3).decode column.source).2.val = 1 := by decide
  have htop := hv 0 (by decide)
  rw [if_pos (by decide), if_pos (by decide)] at htop
  refine ⟨hreads, v, _, w, hrun, hsize, htop.trans ?_, ?_, ?_⟩
  · exact congrArg₂ twelveNumbers.cell? hrow hcol
  · rw [hv 1 (by decide), if_pos (by decide), if_neg (by decide)]
  · rw [hv 2 (by decide), if_pos (by decide), if_neg (by decide)]

end Machine.Vector

end TangledPrograms
