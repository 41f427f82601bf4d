import TangledPrograms.Machine.Grid
import Mathlib.Data.List.Basic

/-!
# Reading a grid after a write

A grid is known by its numbers `get i j`. A write changes the numbers of one cell or of one row and
keeps the size.
-/

namespace TangledPrograms.Machine.Grid

theorem size_rows (g : Grid) : g.rows.size = g.height := rfl

@[simp] theorem height_setRow (g : Grid) (i : Nat) (new : Array Float) (h : new.size = g.width) :
    (g.setRow i new h).height = g.height :=
  Array.size_set (g.rowIndex i).isLt

@[simp] theorem width_setRow (g : Grid) (i : Nat) (new : Array Float) (h : new.size = g.width) :
    (g.setRow i new h).width = g.width := rfl

@[simp] theorem height_set (g : Grid) (i j : Nat) (x : Float) :
    (g.set i j x).height = g.height := height_setRow ..

@[simp] theorem width_set (g : Grid) (i j : Nat) (x : Float) : (g.set i j x).width = g.width := rfl

@[simp] theorem height_mapRow (g : Grid) (i : Nat) (f : Nat → Float → Float) :
    (g.mapRow i f).height = g.height := height_setRow ..

@[simp] theorem width_mapRow (g : Grid) (i : Nat) (f : Nat → Float → Float) :
    (g.mapRow i f).width = g.width := rfl

theorem getElem?_rows (g : Grid) (i : Nat) : g.rows[i % g.height]? = some (g.row i) :=
  Array.getElem?_eq_getElem (Nat.mod_lt _ g.height_pos)

theorem getElem?_row (g : Grid) (i j : Nat) : (g.row i)[j % g.width]? = some (g.get i j) := by
  have : j % g.width < (g.row i).size := by simpa using Nat.mod_lt _ g.width_pos
  exact Array.getElem?_eq_getElem this

theorem row_setRow (g : Grid) (i a : Nat) (new : Array Float) (h : new.size = g.width) :
    (g.setRow i new h).row a = if a % g.height = i % g.height then new else g.row a := by
  apply Option.some.inj
  rw [← getElem?_rows, height_setRow]
  simp only [setRow, rowIndex, Array.getElem?_set, size_rows, eq_comm (a := i % g.height)]
  split
  · rfl
  · exact g.getElem?_rows a

theorem get_set (g : Grid) (i j a b : Nat) (x : Float) :
    (g.set i j x).get a b =
      if a % g.height = i % g.height ∧ b % g.width = j % g.width then x else g.get a b := by
  apply Option.some.inj
  rw [← getElem?_row, width_set, set, row_setRow]
  by_cases ha : a % g.height = i % g.height
  · have hrow : g.row i = g.row a := by
      apply Option.some.inj
      rw [← getElem?_rows, ← getElem?_rows, ha]
    simp only [ha, true_and, if_true, Array.getElem?_set, columnIndex,
      eq_comm (a := j % g.width), hrow, getElem?_row]
    split <;> rfl
  · simp only [ha, false_and, if_false, getElem?_row]

theorem get_mapRow (g : Grid) (i a b : Nat) (f : Nat → Float → Float) :
    (g.mapRow i f).get a b =
      if a % g.height = i % g.height then f (b % g.width) (g.get a b) else g.get a b := by
  apply Option.some.inj
  rw [← getElem?_row, width_mapRow, mapRow, row_setRow]
  by_cases ha : a % g.height = i % g.height
  · have hrow : g.row i = g.row a := by
      apply Option.some.inj
      rw [← getElem?_rows, ← getElem?_rows, ha]
    simp [ha, hrow, getElem?_row]
  · simp only [ha, if_false, getElem?_row]

@[simp] theorem height_zeros (h w : Nat) : (zeros h w).height = max h 1 := Array.size_replicate

@[simp] theorem width_zeros (h w : Nat) : (zeros h w).width = max w 1 := rfl

theorem get_zeros (h w i j : Nat) : (zeros h w).get i j = 0.0 := by
  apply Option.some.inj
  rw [← getElem?_row]
  have hrow : (zeros h w).row i = Array.replicate (max w 1) 0.0 := by
    simp [row, zeros, rowIndex]
  rw [hrow]
  have : j % max w 1 < max w 1 := Nat.mod_lt _ (max_one_pos w)
  simp [zeros, this]

theorem reset_zeros (h w : Nat) : (zeros h w).reset = zeros h w := by
  have hmax : ∀ n, max (max n 1) 1 = max n 1 := by omega
  simp only [reset, zeros, height, Array.size_replicate, hmax]

end TangledPrograms.Machine.Grid
