import TangledPrograms.Machine.Grid

/-!
# Matrices and their cells

In vector mode the input is seen as a matrix. A `CellDecoder` splits one source index into a row and
a column: the low bits give the column, the others the row, each reduced modulo its number. A slice
starts at a cell and runs along its row or down its column, with zeros beyond the edge.
-/

namespace TangledPrograms.Machine

/-- Splits source indices for matrices of the given shape. -/
structure CellDecoder where
  rows : Nat
  cols : Nat
  rows_pos : 0 < rows
  cols_pos : 0 < cols

namespace CellDecoder

/-- The decoder for a shape; a size of zero counts as one. -/
def ofShape (rows cols : Nat) : CellDecoder where
  rows := max rows 1
  cols := max cols 1
  rows_pos := max_one_pos rows
  cols_pos := max_one_pos cols

/-- The number of bits that hold every column: those of the last column. -/
def columnBits (d : CellDecoder) : Nat := if d.cols = 1 then 0 else (d.cols - 1).log2 + 1

def decode (d : CellDecoder) (source : UInt32) : Fin d.rows × Fin d.cols :=
  (⟨(source.toNat >>> d.columnBits) % d.rows, Nat.mod_lt _ d.rows_pos⟩,
    ⟨source.toNat % (1 <<< d.columnBits) % d.cols, Nat.mod_lt _ d.cols_pos⟩)

/-- The source index that puts the column into the low bits and the row above, cut to 32 bits. -/
def encode (d : CellDecoder) (row col : Nat) : UInt32 :=
  .ofNat (row <<< d.columnBits ||| col)

end CellDecoder

/-- Numbers in rows of equal length, none of them missing. -/
structure Matrix where
  rows : Nat
  cols : Nat
  entries : Array Float
  rows_pos : 0 < rows
  cols_pos : 0 < cols
  size_entries : entries.size = rows * cols

namespace Matrix

/-- Sees numbers as a matrix of the given shape. A shape that does not describe them counts as one
row; no numbers are no matrix. -/
def ofEntries? (entries : Array Float) (shape : Nat × Nat) : Option Matrix :=
  if h : 0 < entries.size then
    if hs : 0 < shape.1 ∧ 0 < shape.2 ∧ entries.size = shape.1 * shape.2 then
      some ⟨shape.1, shape.2, entries, hs.1, hs.2.1, hs.2.2⟩
    else some ⟨1, entries.size, entries, Nat.one_pos, h, (Nat.one_mul _).symm⟩
  else none

def entry (m : Matrix) (r : Fin m.rows) (c : Fin m.cols) : Float :=
  have : r.val * m.cols + c.val < m.entries.size := by
    rw [m.size_entries]
    calc r.val * m.cols + c.val < r.val * m.cols + m.cols := Nat.add_lt_add_left c.isLt _
      _ = (r.val + 1) * m.cols := (Nat.succ_mul _ _).symm
      _ ≤ m.rows * m.cols := Nat.mul_le_mul_right _ r.isLt
  m.entries[r.val * m.cols + c.val]

def decoder (m : Matrix) : CellDecoder := ⟨m.rows, m.cols, m.rows_pos, m.cols_pos⟩

/-- `width` numbers along the row from a cell on, zeros beyond its end. -/
def rowSlice (m : Matrix) (r : Fin m.rows) (c : Fin m.cols) (width : Nat) : Array Float :=
  Array.ofFn fun k : Fin width =>
    if h : c.val + k.val < m.cols then m.entry r ⟨c.val + k.val, h⟩ else 0.0

/-- `width` numbers down the column from a cell on, zeros beyond its end. -/
def columnSlice (m : Matrix) (r : Fin m.rows) (c : Fin m.cols) (width : Nat) : Array Float :=
  Array.ofFn fun k : Fin width =>
    if h : r.val + k.val < m.rows then m.entry ⟨r.val + k.val, h⟩ c else 0.0

end Matrix

end TangledPrograms.Machine
