/-!
# Grids of numbers

A `Grid` has at least one row and at least one column. Rows and columns are addressed modulo their
number, so every index is valid. A grid is the shared bank of an agent (rows are groups, columns are
slots) and the register file of vector mode (rows are registers).
-/

namespace TangledPrograms.Machine

/-- A size of which zero counts as one is positive. -/
theorem max_one_pos (n : Nat) : 0 < max n 1 := by omega

/-- Rows of numbers, all of the same width. -/
structure Grid where
  width : Nat
  rows : Array (Array Float)
  width_pos : 0 < width
  height_pos : 0 < rows.size
  size_row : ∀ row ∈ rows, row.size = width
  deriving DecidableEq

namespace Grid

@[ext] theorem ext {a b : Grid} (hw : a.width = b.width) (hr : a.rows = b.rows) : a = b := by
  cases a; cases b; cases hw; cases hr; rfl

def height (g : Grid) : Nat := g.rows.size

/-- A grid of zeros; a size of zero counts as one. -/
def zeros (height width : Nat) : Grid where
  width := max width 1
  rows := Array.replicate (max height 1) (Array.replicate (max width 1) 0.0)
  width_pos := max_one_pos width
  height_pos := by rw [Array.size_replicate]; exact max_one_pos height
  size_row row h := by
    rw [(Array.mem_replicate.1 h).2, Array.size_replicate]

def rowIndex (g : Grid) (i : Nat) : Fin g.rows.size := ⟨i % g.rows.size, Nat.mod_lt _ g.height_pos⟩

def columnIndex (g : Grid) (j : Nat) : Nat := j % g.width

theorem columnIndex_lt (g : Grid) (j : Nat) : g.columnIndex j < g.width := Nat.mod_lt _ g.width_pos

def row (g : Grid) (i : Nat) : Array Float := g.rows[g.rowIndex i]

@[simp] theorem size_row_eq (g : Grid) (i : Nat) : (g.row i).size = g.width :=
  g.size_row _ (Array.getElem_mem _)

def get (g : Grid) (i j : Nat) : Float :=
  have : g.columnIndex j < (g.row i).size := by rw [size_row_eq]; exact g.columnIndex_lt j
  (g.row i)[g.columnIndex j]

def setRow (g : Grid) (i : Nat) (new : Array Float) (h : new.size = g.width) : Grid where
  width := g.width
  rows := g.rows.set (g.rowIndex i) new
  width_pos := g.width_pos
  height_pos := by rw [Array.size_set]; exact g.height_pos
  size_row r hr := by
    rcases Array.mem_or_eq_of_mem_set hr with hr | rfl
    · exact g.size_row r hr
    · exact h

def mapRow (g : Grid) (i : Nat) (f : Nat → Float → Float) : Grid :=
  g.setRow i ((g.row i).mapIdx f) (by rw [Array.size_mapIdx, size_row_eq])

def set (g : Grid) (i j : Nat) (x : Float) : Grid :=
  g.setRow i ((g.row i).set (g.columnIndex j) x (by rw [size_row_eq]; exact g.columnIndex_lt j))
    (by rw [Array.size_set, size_row_eq])

/-- A grid of zeros of the same size. -/
def reset (g : Grid) : Grid := zeros g.height g.width

def toList (g : Grid) : List Float := g.rows.toList.flatMap Array.toList

end Grid

/-- The memory that an agent's learners share. -/
abbrev Bank := Grid

end TangledPrograms.Machine
