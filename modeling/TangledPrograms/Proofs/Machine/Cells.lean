import TangledPrograms.Machine.Matrix
import TangledPrograms.Proofs.Program.Bounds

/-!
# The cells that sources lead to

Many sources lead to one cell. The least of them has the column in its low bits and the row above, as
long as that number is a word of 32 bits; if it is not, no source leads there at all. So the sources
below a bound lead to those cells of which the least source lies below it, and when the number of
columns is not a power of two, as many sources as there are cells miss some of them.
-/

namespace TangledPrograms.Machine.CellDecoder

variable (d : CellDecoder)

abbrev Cell : Type := Fin d.rows × Fin d.cols

/-- So many bits hold every column, and no fewer do. -/
theorem columnBits_le_iff {k : ℕ} : d.columnBits ≤ k ↔ d.cols ≤ 2 ^ k := by
  have hpos := d.cols_pos
  rw [columnBits]
  by_cases h : d.cols = 1
  · have hpow := Nat.two_pow_pos k
    rw [if_pos h, h]
    omega
  · rw [if_neg h, Nat.succ_le_iff, Nat.log2_lt (by omega)]
    omega

theorem cols_le : d.cols ≤ 2 ^ d.columnBits := d.columnBits_le_iff.1 (Nat.le_refl _)

/-- The columns fill the low bits exactly if their number is a power of two. -/
theorem two_pow_columnBits_eq_iff : 2 ^ d.columnBits = d.cols ↔ ∃ k, d.cols = 2 ^ k := by
  constructor
  · exact fun h => ⟨_, h.symm⟩
  · rintro ⟨k, hk⟩
    have hbits : d.columnBits ≤ k := d.columnBits_le_iff.2 hk.le
    have hupper : 2 ^ d.columnBits ≤ 2 ^ k := Nat.pow_le_pow_right (by decide) hbits
    have hlower := d.cols_le
    omega

/-- The column in the low bits and the row above. -/
def least (cell : d.Cell) : ℕ := cell.1 * 2 ^ d.columnBits + cell.2

def last : d.Cell :=
  (⟨d.rows - 1, Nat.sub_one_lt_of_lt d.rows_pos⟩, ⟨d.cols - 1, Nat.sub_one_lt_of_lt d.cols_pos⟩)

theorem least_last : d.least d.last = (d.rows - 1) * 2 ^ d.columnBits + (d.cols - 1) := rfl

theorem least_le_last (cell : d.Cell) : d.least cell ≤ d.least d.last := by
  have hrow : cell.1.val ≤ d.rows - 1 := Nat.le_sub_one_of_lt cell.1.isLt
  have hcol : cell.2.val ≤ d.cols - 1 := Nat.le_sub_one_of_lt cell.2.isLt
  exact Nat.add_le_add (Nat.mul_le_mul_right _ hrow) hcol

theorem decode_row (source : UInt32) :
    (d.decode source).1.val = source.toNat / 2 ^ d.columnBits % d.rows := by
  simp only [decode, Nat.shiftRight_eq_div_pow]

theorem decode_col (source : UInt32) :
    (d.decode source).2.val = source.toNat % 2 ^ d.columnBits % d.cols := by
  simp only [decode, Nat.one_shiftLeft]

/-- Wrapping a row or a column makes it no larger. -/
theorem least_decode_le (source : UInt32) : d.least (d.decode source) ≤ source.toNat := by
  rw [least, decode_row, decode_col]
  calc source.toNat / 2 ^ d.columnBits % d.rows * 2 ^ d.columnBits +
        source.toNat % 2 ^ d.columnBits % d.cols
      ≤ source.toNat / 2 ^ d.columnBits * 2 ^ d.columnBits + source.toNat % 2 ^ d.columnBits :=
        Nat.add_le_add (Nat.mul_le_mul_right _ (Nat.mod_le ..)) (Nat.mod_le ..)
    _ = source.toNat := Nat.div_add_mod' ..

theorem encode_eq (cell : d.Cell) : d.encode cell.1 cell.2 = .ofNat (d.least cell) := by
  have hcol : cell.2.val < 2 ^ d.columnBits := Nat.lt_of_lt_of_le cell.2.isLt d.cols_le
  rw [encode, least, ← Nat.shiftLeft_add_eq_or_of_lt hcol, Nat.shiftLeft_eq]

theorem toNat_encode {cell : d.Cell} (h : d.least cell < 2 ^ 32) :
    (d.encode cell.1 cell.2).toNat = d.least cell := by
  rw [encode_eq]
  exact UInt32.toNat_ofNat_of_lt' h

theorem decode_encode {cell : d.Cell} (h : d.least cell < 2 ^ 32) :
    d.decode (d.encode cell.1 cell.2) = cell := by
  have hcol : cell.2.val < 2 ^ d.columnBits := Nat.lt_of_lt_of_le cell.2.isLt d.cols_le
  have hdiv : d.least cell / 2 ^ d.columnBits = cell.1 := by
    rw [least, Nat.mul_comm, Nat.mul_add_div (Nat.two_pow_pos _), Nat.div_eq_of_lt hcol, Nat.add_zero]
  have hmod : d.least cell % 2 ^ d.columnBits = cell.2 := by
    rw [least, Nat.mul_comm, Nat.mul_add_mod, Nat.mod_eq_of_lt hcol]
  apply Prod.ext <;> apply Fin.ext
  · rw [decode_row, toNat_encode d h, hdiv, Nat.mod_eq_of_lt cell.1.isLt]
  · rw [decode_col, toNat_encode d h, hmod, Nat.mod_eq_of_lt cell.2.isLt]

theorem decode_ne {cell : d.Cell} (h : 2 ^ 32 ≤ d.least cell) (source : UInt32) :
    d.decode source ≠ cell := by
  rintro rfl
  exact absurd source.toNat_lt (Nat.not_lt.2 (h.trans (d.least_decode_le source)))

/-- Some source below the bound leads to the cell. -/
def Reaches (bound : UInt32) (cell : d.Cell) : Prop := ∃ source < bound, d.decode source = cell

theorem reaches_iff {bound : UInt32} {cell : d.Cell} :
    d.Reaches bound cell ↔ d.least cell < bound.toNat := by
  constructor
  · rintro ⟨source, hsource, rfl⟩
    exact (d.least_decode_le source).trans_lt (UInt32.lt_iff_toNat_lt.1 hsource)
  · intro h
    have hword : d.least cell < 2 ^ 32 := h.trans bound.toNat_lt
    refine ⟨_, ?_, d.decode_encode hword⟩
    rw [UInt32.lt_iff_toNat_lt, toNat_encode d hword]
    exact h

/-- The last cell is reached last. -/
theorem forall_reaches_iff {bound : UInt32} :
    (∀ cell, d.Reaches bound cell) ↔ d.least d.last < bound.toNat := by
  simp only [reaches_iff]
  exact ⟨fun h => h d.last, fun h cell => (d.least_le_last cell).trans_lt h⟩

/-- No shape has more cells than numbers up to the last cell's. -/
theorem rows_mul_cols_le : d.rows * d.cols ≤ d.least d.last + 1 := by
  have hcols := d.cols_pos
  obtain ⟨rows, hrows⟩ : ∃ rows, d.rows = rows + 1 := ⟨d.rows - 1, by have := d.rows_pos; omega⟩
  have hle : rows * d.cols ≤ rows * 2 ^ d.columnBits := Nat.mul_le_mul_left _ d.cols_le
  rw [least_last, hrows, Nat.add_sub_cancel, Nat.succ_mul]
  omega

/-- Numbers between the columns of one row and those of the next are passed over, unless the columns
fill the low bits or there is one row only. -/
theorem least_last_eq_iff : d.least d.last + 1 = d.rows * d.cols ↔
    (∃ k, d.cols = 2 ^ k) ∨ d.rows = 1 := by
  have hcols := d.cols_pos
  have hle := d.cols_le
  obtain ⟨rows, hrows⟩ : ∃ rows, d.rows = rows + 1 := ⟨d.rows - 1, by have := d.rows_pos; omega⟩
  rw [least_last, hrows, ← two_pow_columnBits_eq_iff, Nat.add_sub_cancel, Nat.succ_mul]
  have hsplit : rows * 2 ^ d.columnBits = rows * d.cols ↔ 2 ^ d.columnBits = d.cols ∨ rows = 0 := by
    rcases Nat.eq_zero_or_pos rows with rfl | hpos
    · simp
    · simp [Nat.mul_left_cancel_iff hpos, hpos.ne']
  omega

/-- The sources of random instructions lead to the cells that the sources below their range lead to. -/
theorem sampled_reaches_iff (r : InstructionRanges) (cell : d.Cell) :
    (∃ s i s', Instruction.random r s = .ok (i, s') ∧ d.decode i.source = cell) ↔
      d.Reaches (max r.sources 1) cell := by
  constructor
  · rintro ⟨s, i, s', hi, hcell⟩
    exact ⟨i.source, (Instruction.spans_random r).sound s i s' hi .source, hcell⟩
  · rintro ⟨source, hsource, hcell⟩
    have hzero : ∀ f : Field, 0 < max (f.range r) 1 := fun f =>
      UInt32.lt_iff_toNat_lt.2 (Nat.pos_of_ne_zero (Instruction.range_ne_zero r f))
    have hsampled : Instruction.Sampled r ⟨0, 0, 0, 0, 0, source⟩ := by
      intro f
      cases f with
      | source => exact hsource
      | mode | operation | destShared | dest | sourceShared => exact hzero _
    obtain ⟨s, s', hs⟩ := ((Instruction.spans_random r).exists_iff _).2 hsampled
    exact ⟨s, _, s', hs, hcell⟩

/-- For every shape: a source leads to a cell within it, and is no smaller than the cell's least number;
where that number is a word, `encode` gives it and it leads back, and where it is not, nothing leads to
the cell. So the sources below a bound, the sampled ones too, reach the cells with a smaller least
number, and all cells as soon as the bound exceeds that of the last one. That is another condition than
to have as many sources as cells, unless the number of columns is a power of two or there is one row. -/
theorem decode_reach :
    (∀ source, (d.decode source).1.val < d.rows ∧ (d.decode source).2.val < d.cols ∧
      d.least (d.decode source) ≤ source.toNat) ∧
    (∀ cell, d.least cell < 2 ^ 32 → (d.encode cell.1 cell.2).toNat = d.least cell ∧
      d.decode (d.encode cell.1 cell.2) = cell ∧
      ∀ source, d.decode source = cell → d.encode cell.1 cell.2 ≤ source) ∧
    (∀ cell, 2 ^ 32 ≤ d.least cell → (∀ source, d.decode source ≠ cell) ∧
      d.decode (d.encode cell.1 cell.2) ≠ cell) ∧
    (∀ bound : UInt32, {cell | ∃ source < bound, d.decode source = cell} =
        {cell | cell.1.val * 2 ^ d.columnBits + cell.2.val < bound.toNat} ∧
      ((∀ cell, ∃ source < bound, d.decode source = cell) ↔
        (d.rows - 1) * 2 ^ d.columnBits + (d.cols - 1) < bound.toNat) ∧
      (bound.toNat = d.rows * d.cols → ((∀ cell, ∃ source < bound, d.decode source = cell) ↔
        (∃ k, d.cols = 2 ^ k) ∨ d.rows = 1))) ∧
    ((∀ n, (d.rows - 1) * 2 ^ d.columnBits + (d.cols - 1) < n ↔ d.rows * d.cols ≤ n) ↔
      (∃ k, d.cols = 2 ^ k) ∨ d.rows = 1) ∧
    ∀ (r : InstructionRanges) cell, (∃ s i s', Instruction.random r s = .ok (i, s') ∧
      d.decode i.source = cell) ↔ ∃ source < max r.sources 1, d.decode source = cell := by
  have hlast := d.least_last_eq_iff
  refine ⟨fun source => ⟨Fin.isLt _, Fin.isLt _, d.least_decode_le source⟩,
    fun cell h => ⟨d.toNat_encode h, d.decode_encode h, fun source hsource => ?_⟩,
    fun cell h => ⟨d.decode_ne h, d.decode_ne h _⟩,
    fun bound => ⟨?_, d.forall_reaches_iff, fun hbound => ?_⟩, ?_, d.sampled_reaches_iff⟩
  · rw [UInt32.le_iff_toNat_le, d.toNat_encode h, ← hsource]
    exact d.least_decode_le source
  · ext cell
    exact d.reaches_iff
  · rw [← hlast]
    refine d.forall_reaches_iff.trans ?_
    have hcells := d.rows_mul_cols_le
    omega
  · rw [← hlast, ← least_last]
    constructor
    · intro h
      have hone := h (d.least d.last + 1)
      have htwo := h (d.rows * d.cols)
      omega
    · intro h n
      omega

end TangledPrograms.Machine.CellDecoder
