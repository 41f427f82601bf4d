import TangledPrograms.Proofs.Coordinates
import TangledPrograms.Proofs.Machine.Grid
import TangledPrograms.Proofs.Machine.Flat
import TangledPrograms.Proofs.Number.Order

/-!
# A grid as one array

On the block of a grid every checked access succeeds and does what the grid's own operation does. The
writes of a run are followed by the places they went to.
-/

namespace TangledPrograms.Machine

namespace Grid

def block (g : Grid) : Flat.Block := ⟨g.height, g.width, g.toList.toArray⟩

@[simp] theorem height_block (g : Grid) : g.block.height = g.height := rfl
@[simp] theorem width_block (g : Grid) : g.block.width = g.width := rfl

/-- Where `get i j` stands in the array. -/
def place (g : Grid) (i j : Nat) : Nat := i % g.height * g.width + j % g.width

theorem place_lt (g : Grid) (i j : Nat) : g.place i j < g.height * g.width := by
  have hi : i % g.height < g.height := Nat.mod_lt _ g.height_pos
  have hj : j % g.width < g.width := Nat.mod_lt _ g.width_pos
  calc g.place i j < i % g.height * g.width + g.width := Nat.add_lt_add_left hj _
    _ = (i % g.height + 1) * g.width := (Nat.succ_mul _ _).symm
    _ ≤ g.height * g.width := Nat.mul_le_mul_right _ hi

private theorem length_row (g : Grid) : ∀ a ∈ g.rows.toList, a.toList.length = g.width := fun a ha =>
  Array.length_toList.trans (g.size_row a (by simpa using ha))

theorem getElem?_place (g : Grid) (i j : Nat) : g.block.values[g.place i j]? = some (g.get i j) := by
  have hj : j % g.width < g.width := Nat.mod_lt _ g.width_pos
  change (g.rows.toList.flatMap Array.toList).toArray[i % g.height * g.width + j % g.width]? = _
  rw [List.getElem?_toArray, getElem?_flatMap g.length_row hj, Array.getElem?_toList, getElem?_rows,
    Option.bind_some, Array.getElem?_toList, getElem?_row]

theorem size_block (g : Grid) : g.block.values.size = g.height * g.width :=
  (length_flatMap_const g.length_row).trans (congrArg (· * g.width) Array.length_toList)

theorem exists_place (g : Grid) {n : Nat} (h : n < g.height * g.width) :
   n = g.place (n / g.width) (n % g.width) := by
  have : n / g.width < g.height := Nat.div_lt_of_lt_mul (by rwa [Nat.mul_comm] at h)
  rw [place, Nat.mod_eq_of_lt this, Nat.mod_mod, Nat.div_add_mod']

/-- Row `i` occupies the places of its cells and no others. -/
theorem place_mem_row_iff (g : Grid) {i a b : Nat} :
    i % g.height * g.width ≤ g.place a b ∧ g.place a b < i % g.height * g.width + g.width ↔
      a % g.height = i % g.height := by
  have hb : b % g.width < g.width := Nat.mod_lt _ g.width_pos
  have step : ∀ {r s : Nat}, r < s → r * g.width + g.width ≤ s * g.width := fun {r s} h => by
    rw [← Nat.succ_mul]
    exact Nat.mul_le_mul_right _ h
  rw [place]
  constructor
  · rintro ⟨hlow, hhigh⟩
    rcases Nat.lt_trichotomy (a % g.height) (i % g.height) with h | h | h
    · have := step h
      omega
    · exact h
    · have := step h
      omega
  · intro h
    rw [h]
    omega

theorem place_eq_iff (g : Grid) {i j a b : Nat} :
    g.place i j = g.place a b ↔ a % g.height = i % g.height ∧ b % g.width = j % g.width := by
  constructor
  · intro h
    have hrow : a % g.height = i % g.height := by
      rw [← g.place_mem_row_iff (b := b), ← h, g.place_mem_row_iff]
    rw [place, place, hrow] at h
    exact ⟨hrow, by omega⟩
  · rintro ⟨h₁, h₂⟩
    rw [place, place, h₁, h₂]

theorem block_ext {g : Grid} {b : Flat.Block} (hh : b.height = g.height) (hw : b.width = g.width)
    (hs : b.values.size = g.height * g.width)
    (h : ∀ i j, b.values[g.place i j]? = some (g.get i j)) : b = g.block := by
  obtain ⟨height, width, values⟩ := b
  subst hh; subst hw
  congr 1
  apply Array.ext_getElem?
  intro n
  change values[n]? = g.block.values[n]?
  by_cases hn : n < g.height * g.width
  · rw [g.exists_place hn, g.getElem?_place]
    exact h _ _
  · rw [Array.getElem?_eq_none (hs.trans_le (not_lt.1 hn)),
      Array.getElem?_eq_none (g.size_block.trans_le (not_lt.1 hn))]

open Flat

theorem offset_block (g : Grid) (i j : Nat) : g.block.offset i j = .ok (g.place i j) := by
  have hh : g.height ≠ 0 := Nat.ne_of_gt g.height_pos
  have hw : g.width ≠ 0 := Nat.ne_of_gt g.width_pos
  simp [Block.offset, remainder, hh, hw, place, bind, Except.bind, pure, Except.pure]

theorem read_block (g : Grid) (i j : Nat) : read g.block.values (g.place i j) = .ok (g.get i j) := by
  obtain ⟨h, hx⟩ := Array.getElem?_eq_some_iff.1 (g.getElem?_place i j)
  simp [Flat.read, h, hx]

theorem set_block (g : Grid) (i j : Nat) (x : Float) :
    g.block.set (g.place i j) x = .ok (g.set i j x).block := by
  have h : g.place i j < g.block.values.size := g.size_block ▸ g.place_lt i j
  have hset : g.block.set (g.place i j) x =
      .ok ⟨g.height, g.width, g.block.values.set (g.place i j) x⟩ := by
    simp [Block.set, write, h, bind, Except.bind, pure, Except.pure]
  refine hset.trans (congrArg _ (block_ext (by simp) (by simp) (by simpa using g.size_block) ?_))
  intro a b
  have hp : (g.set i j x).place a b = g.place a b := by simp [place]
  rw [hp, get_set, Array.getElem?_set, getElem?_place]
  simp only [place_eq_iff]
  split <;> rfl

theorem getElem?_set_block (g : Grid) (i j k : Nat) (x : Float) :
    (g.set i j x).block.values[k]? =
      if g.place i j = k then some x else g.block.values[k]? := by
  have hset := g.set_block i j x
  have hsize : g.place i j < g.block.values.size := g.size_block ▸ g.place_lt i j
  simp only [Block.set, Flat.write, hsize, dite_true] at hset
  rw [← Except.ok.inj hset]
  exact Array.getElem?_set hsize

theorem part_block (g : Grid) (i : Nat) :
    part g.block.values (i % g.height * g.width) (i % g.height * g.width + g.width) =
      .ok (g.row i) := by
  have hi : (i % g.height + 1) * g.width ≤ g.height * g.width :=
    Nat.mul_le_mul_right _ (Nat.mod_lt _ g.height_pos)
  rw [Nat.succ_mul] at hi
  have hsize : i % g.height * g.width + g.width ≤ g.block.values.size := by
    rw [g.size_block]
    exact hi
  rw [part, if_pos ⟨Nat.le_add_right _ _, hsize⟩]
  congr 1
  apply Array.ext_getElem?
  intro k
  by_cases hk : k < g.width
  · have hplace : i % g.height * g.width + k = g.place i k := by rw [place, Nat.mod_eq_of_lt hk]
    have hrow := g.getElem?_row i k
    rw [Nat.mod_eq_of_lt hk] at hrow
    have hmin : k < min (i % g.height * g.width + g.width) g.block.values.size -
        i % g.height * g.width := by omega
    rw [hrow, ← g.getElem?_place, ← hplace, Array.getElem?_extract, if_pos hmin]
  · rw [Array.getElem?_eq_none, Array.getElem?_eq_none]
    · simpa using not_lt.1 hk
    · rw [Array.size_extract]
      omega

theorem row_block (g : Grid) (i : Nat) : g.block.row i = .ok (g.row i) := by
  have hh : g.height ≠ 0 := Nat.ne_of_gt g.height_pos
  simp [Block.row, remainder, hh, bind, Except.bind, part_block]

theorem mapRow_block (g : Grid) (i : Nat) (f : Nat → Float → Float) :
    g.block.mapRow i f = .ok (g.mapRow i f).block := by
  have hh : g.height ≠ 0 := Nat.ne_of_gt g.height_pos
  have hmap : g.block.mapRow i f = .ok ⟨g.height, g.width, g.block.values.mapIdx fun k x =>
      if i % g.height * g.width ≤ k ∧ k < i % g.height * g.width + g.width
      then f (k - i % g.height * g.width) x else x⟩ := by
    simp [Block.mapRow, remainder, hh, bind, Except.bind, part_block, pure, Except.pure]
    rfl
  refine hmap.trans (congrArg _ (block_ext (by simp) (by simp) (by simpa using g.size_block) ?_))
  intro a b
  have hp : (g.mapRow i f).place a b = g.place a b := by simp [place]
  have hb : b % g.width < g.width := Nat.mod_lt _ g.width_pos
  rw [hp, get_mapRow, Array.getElem?_mapIdx, getElem?_place, Option.map_some]
  simp only [place_mem_row_iff]
  by_cases ha : a % g.height = i % g.height
  · have : g.place a b - i % g.height * g.width = b % g.width := by
      rw [place, ha]
      omega
    rw [if_pos ha, if_pos ha, this]
  · rw [if_neg ha, if_neg ha]

theorem reset_block (g : Grid) : g.block.reset = (zeros g.height g.width).block := by
  have hheight : (zeros g.height g.width).height = g.height :=
    (height_zeros ..).trans (Nat.max_eq_left g.height_pos)
  have hwidth : (zeros g.height g.width).width = g.width := Nat.max_eq_left g.width_pos
  refine block_ext hheight.symm hwidth.symm ?_ fun i j => ?_
  · rw [hheight, hwidth, ← g.size_block]
    exact Array.size_map
  · have hp : (zeros g.height g.width).place i j = g.place i j := by rw [place, place, hheight, hwidth]
    rw [hp, get_zeros, Block.reset, Array.getElem?_map, getElem?_place]
    rfl

end Grid

open Flat

/-- Which places of the bank may have changed since `before`: those that were written, and these hold
finite numbers. -/
structure WritesFinite (before : Block) (bank : Block) (written : List Nat) : Prop where
  finite : ∀ k ∈ written, ∃ x, bank.values[k]? = some x ∧ x.isFinite = true
  unchanged : ∀ k, k ∉ written → bank.values[k]? = before.values[k]?

namespace WritesFinite

theorem start (bank : Block) : WritesFinite bank bank [] := ⟨by simp, by simp⟩

theorem set {before : Block} {g : Grid} {written : List Nat}
    (h : WritesFinite before g.block written) (i j : Nat) (x : Float) :
    WritesFinite before (g.set i j (normalize x)).block (g.place i j :: written) := by
  constructor
  · intro k hk
    rw [Grid.getElem?_set_block]
    by_cases hp : g.place i j = k
    · exact ⟨_, if_pos hp, Number.isFinite_normalize x⟩
    · rw [if_neg hp]
      exact h.finite k ((List.mem_cons.1 hk).resolve_left fun e => hp e.symm)
  · intro k hk
    rw [List.mem_cons, not_or] at hk
    rw [Grid.getElem?_set_block, if_neg fun e => hk.1 e.symm]
    exact h.unchanged k hk.2

theorem allFinite {before bank : Block} {written : List Nat}
    (h : WritesFinite before bank written) (hb : ∀ x ∈ before.values, x.isFinite = true) :
    ∀ x ∈ bank.values, x.isFinite = true := by
  intro x hx
  obtain ⟨k, hk⟩ := Array.mem_iff_getElem?.1 hx
  by_cases hw : k ∈ written
  · obtain ⟨y, hy, hfin⟩ := h.finite k hw
    rwa [Option.some.inj (hk.symm.trans hy)]
  · exact hb x (Array.mem_iff_getElem?.2 ⟨k, (h.unchanged k hw).symm.trans hk⟩)

end WritesFinite

end TangledPrograms.Machine
