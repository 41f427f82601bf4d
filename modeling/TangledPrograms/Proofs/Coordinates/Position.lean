import TangledPrograms.Proofs.Machine.Slices
import Mathlib.Data.Set.Function

/-!
# Positions of coordinates

The position of a coordinate is the place of its wrapped coordinate, as far as a word keeps it. If the
volume of a shape is a word, then no product or sum on the way to a position exceeds one: positions
number the coordinates within the shape without a gap, coordinates have the same position exactly if
they agree modulo the length of every axis, and the last axis can be split off as the column of a matrix.
-/

namespace TangledPrograms

section

variable {shape coords : List ℕ}

/-- Coordinates are wrapped alike exactly if they agree modulo the length of every axis. -/
theorem wrap_eq_wrap_iff {x y : List ℕ} (hx : x.length = shape.length)
    (hy : y.length = shape.length) :
    wrap shape x = wrap shape y ↔ ∀ i (h : i < shape.length), x[i] ≡ y[i] [MOD shape[i]] := by
  have hlength : ∀ {z : List ℕ}, z.length = shape.length → (wrap shape z).length = shape.length := by
    intro z hz
    rw [wrap, List.length_zipWith, hz, Nat.min_self]
  constructor
  · intro h i hi
    have hentry := congrArg (fun z : List ℕ => z[i]?) h
    simpa [wrap, List.getElem?_zipWith, hx, hy, hi, Nat.ModEq] using hentry
  · intro h
    refine List.ext_getElem ((hlength hx).trans (hlength hy).symm) fun i hi _ => ?_
    rw [hlength hx] at hi
    simpa [wrap, Nat.ModEq] using h i hi

theorem flatIndexFrom_eq {before : ℕ} (hbefore : before < UInt64.size)
    (h : coords.length = shape.length) : flatIndexFrom before shape coords =
      lowWord (before * volume shape + place shape (wrap shape coords)) := by
  induction shape generalizing before coords with
  | nil =>
    rw [List.length_eq_zero_iff.1 h]
    simp [flatIndexFrom, place, volume, lowWord_of_lt hbefore]
  | cons d shape ih =>
    obtain _ | ⟨c, coords⟩ := coords
    · simp at h
    · have hwrap : wrap (d :: shape) (c :: coords) = c % d :: wrap shape coords := rfl
      rw [flatIndexFrom, ih (lowWord_lt _) (Nat.succ.inj h), lowWord_mul_add, volume_cons, hwrap, place]
      congr 1
      ring

theorem flatIndex_eq (h : coords.length = shape.length) :
    flatIndex shape coords = lowWord (place shape (wrap shape coords)) := by
  rw [flatIndex, flatIndexFrom_eq (by decide) h, Nat.zero_mul, Nat.zero_add]

/-- The last axis is the fastest. -/
theorem flatIndex_concat (d c : ℕ) (h : coords.length = shape.length) :
    flatIndex (shape ++ [d]) (coords ++ [c]) = lowWord (flatIndex shape coords * d + c % d) := by
  have hlength : (coords ++ [c]).length = (shape ++ [d]).length := by simp [h]
  have hwrap : wrap (shape ++ [d]) (coords ++ [c]) = wrap shape coords ++ [c % d] :=
    List.zipWith_append h
  have hrest : (wrap shape coords).length = shape.length := by simp [wrap, h]
  rw [flatIndex_eq hlength, flatIndex_eq h, hwrap, place_concat _ _ hrest, lowWord_mul_add]

def word? (n : ℕ) : Option ℕ := if n < UInt64.size then some n else none

/-- The position once more, computed in words; every product and every sum must be a word. -/
def flatIndexWord? (shape coords : List ℕ) : Option ℕ :=
  (shape.zip coords).foldlM (fun before axis => do
    word? ((← word? (before * axis.1)) + axis.2 % axis.1)) 0

section pos

variable (hpos : ∀ d ∈ shape, 0 < d)
include hpos

theorem volume_pos : 0 < volume shape := by
  induction shape with
  | nil => exact Nat.one_pos
  | cons d shape ih =>
    rw [List.forall_mem_cons] at hpos
    exact Nat.mul_pos hpos.1 (ih hpos.2)

theorem flatIndex_lt (h : coords.length = shape.length) : flatIndex shape coords < volume shape := by
  rw [flatIndex_eq h]
  exact (lowWord_le _).trans_lt (place_lt (within_wrap h hpos))

theorem flatIndex?_eq (coords : List ℕ) : flatIndex? shape coords = .ok (flatIndex shape coords) :=
  if_neg fun hzero => absurd (hpos 0 (List.mem_of_mem_take hzero)) (Nat.lt_irrefl 0)

section words

variable (hvolume : volume shape ≤ UInt64.size)
include hvolume

/-- Where the volume does not exceed a word, positions are places. -/
theorem flatIndex_eq_place (h : coords.length = shape.length) :
    flatIndex shape coords = place shape (wrap shape coords) := by
  rw [flatIndex_eq h, lowWord_of_lt ((place_lt (within_wrap h hpos)).trans_le hvolume)]

theorem flatIndex_eq_iff {x y : List ℕ} (hx : x.length = shape.length)
    (hy : y.length = shape.length) : flatIndex shape x = flatIndex shape y ↔
      ∀ i (h : i < shape.length), x[i] ≡ y[i] [MOD shape[i]] := by
  rw [flatIndex_eq_place hpos hvolume hx, flatIndex_eq_place hpos hvolume hy,
    ← wrap_eq_wrap_iff hx hy]
  exact ⟨place_inj (within_wrap hx hpos) (within_wrap hy hpos), congrArg _⟩

/-- Positions number the coordinates within the shape. -/
theorem bijOn_flatIndex :
    Set.BijOn (flatIndex shape) {c | Within shape c} {p | p < volume shape} := by
  have hplace : ∀ {c}, Within shape c → flatIndex shape c = place shape c := fun hc => by
    rw [flatIndex_eq_place hpos hvolume hc.length_eq, wrap_eq_self hc]
  refine ⟨fun c hc => ?_, fun x hx y hy hxy => ?_, fun p hp => ?_⟩
  · exact flatIndex_lt hpos (List.Forall₂.length_eq hc)
  · rw [hplace hx, hplace hy] at hxy
    exact place_inj hx hy hxy
  · have hc := within_coordinates hp
    exact ⟨coordinates shape p, hc, (hplace hc).trans (place_coordinates hp)⟩

end words

/-- What is to come needs room for `before` whole blocks and one more. -/
private theorem foldlM_word? {before : ℕ} (hroom : (before + 1) * volume shape ≤ UInt64.size)
    (coords : List ℕ) :
    (shape.zip coords).foldlM (fun before axis => do
      word? ((← word? (before * axis.1)) + axis.2 % axis.1)) before =
      some (flatIndexFrom before shape coords) := by
  induction shape generalizing before coords with
  | nil => rfl
  | cons d shape ih =>
    rw [List.forall_mem_cons] at hpos
    obtain _ | ⟨c, coords⟩ := coords
    · rfl
    · have hlow := Nat.mod_lt c hpos.1
      have hnext : (before * d + c % d + 1) * volume shape ≤ UInt64.size :=
        calc (before * d + c % d + 1) * volume shape
            ≤ (before * d + d) * volume shape := Nat.mul_le_mul_right _ (by omega)
          _ = (before + 1) * volume (d :: shape) := by
            rw [volume_cons]
            ring
          _ ≤ UInt64.size := hroom
      have hsum : before * d + c % d < UInt64.size :=
        (Nat.lt_succ_self _).trans_le ((Nat.le_mul_of_pos_right _ (volume_pos hpos.2)).trans hnext)
      have hproduct : before * d < UInt64.size := by omega
      rw [List.zip_cons_cons, List.foldlM_cons, flatIndexFrom, lowWord_of_lt hsum,
        ← ih hpos.2 hnext]
      simp only [word?, if_pos hproduct, if_pos hsum, Option.bind_eq_bind, Option.bind_some]

theorem flatIndexWord?_eq (hvolume : volume shape ≤ UInt64.size) (coords : List ℕ) :
    flatIndexWord? shape coords = some (flatIndex shape coords) :=
  foldlM_word? hpos (by omega) coords

end pos

end

namespace Observation

variable (o : Observation)

/-- The position of a coordinate is that of a cell of the matrix view: its row is the position of the
leading coordinates, its column the wrapped last one. -/
theorem exists_cell (hwords : volume o.shape ≤ UInt64.size) (leading : List ℕ) (last : ℕ)
    (h : leading.length = o.shape.dropLast.length) :
    ∃ (r : Fin o.matrix.rows) (c : Fin o.matrix.cols),
      r.val = flatIndex o.shape.dropLast leading ∧ c.val = last % o.rowsCols.2 ∧
      flatIndex o.shape (leading ++ [last]) = r.val * o.rowsCols.2 + c.val ∧
      o.values[flatIndex o.shape (leading ++ [last])]? = some (o.matrix.entry r c) := by
  have hleading : ∀ d ∈ o.shape.dropLast, 0 < d := fun d hd =>
    o.axis_pos d (List.mem_of_mem_dropLast hd)
  have hrow : flatIndex o.shape.dropLast leading < o.rowsCols.1 :=
    o.rows_eq ▸ flatIndex_lt hleading h
  have hcolumn : last % o.rowsCols.2 < o.rowsCols.2 := Nat.mod_lt _ o.cols_pos
  have hposition : flatIndex o.shape (leading ++ [last]) =
      flatIndex o.shape.dropLast leading * o.rowsCols.2 + last % o.rowsCols.2 := by
    have hcell : flatIndex o.shape.dropLast leading * o.rowsCols.2 + last % o.rowsCols.2 <
        volume o.shape :=
      calc flatIndex o.shape.dropLast leading * o.rowsCols.2 + last % o.rowsCols.2
          < (flatIndex o.shape.dropLast leading + 1) * o.rowsCols.2 := by
            rw [Nat.succ_mul]
            exact Nat.add_lt_add_left hcolumn _
        _ ≤ o.rowsCols.1 * o.rowsCols.2 := Nat.mul_le_mul_right _ hrow
        _ = volume o.shape := o.rows_mul_cols.trans o.volume_shape.symm
    rw [← lowWord_of_lt (hcell.trans_le hwords), ← flatIndex_concat _ _ h, ← o.shape_eq]
  refine ⟨⟨_, hrow⟩, ⟨_, hcolumn⟩, rfl, rfl, hposition, ?_⟩
  rw [hposition]
  exact Array.getElem?_eq_getElem _

end Observation

/-- For every shape without an axis of length zero, every coordinate has a position, and it lies below
the volume. If the volume is a word, then no product and no sum on the way to a position exceeds one;
coordinates have the same position exactly if they agree modulo the length of every axis; positions
number the coordinates within the shape; and in an observation they are those of the matrix view, whose
rows are numbered by the leading coordinates. -/
theorem flatIndex_numbers {shape : List ℕ} (hpos : ∀ d ∈ shape, 0 < d) :
    (∀ coords : List ℕ, coords.length = shape.length →
      flatIndex? shape coords = .ok (flatIndex shape coords) ∧
      flatIndex shape coords < volume shape) ∧
    (volume shape < UInt64.size →
      (∀ coords : List ℕ, coords.length = shape.length →
        flatIndexWord? shape coords = some (flatIndex shape coords)) ∧
      (∀ x y : List ℕ, (hx : x.length = shape.length) → (hy : y.length = shape.length) →
        (flatIndex shape x = flatIndex shape y ↔
          ∀ i (h : i < shape.length), x[i] ≡ y[i] [MOD shape[i]])) ∧
      Set.BijOn (flatIndex shape) {c | Within shape c} {p | p < volume shape} ∧
      ∀ o : Observation, o.shape = shape → ∀ leading last, leading.length + 1 = shape.length →
        shape.getLast? = some o.rowsCols.2 ∧ (o.matrix.rows, o.matrix.cols) = o.rowsCols ∧
        ∃ (r : Fin o.matrix.rows) (c : Fin o.matrix.cols),
          r.val = flatIndex shape.dropLast leading ∧ c.val = last % o.rowsCols.2 ∧
          flatIndex shape (leading ++ [last]) = r.val * o.rowsCols.2 + c.val ∧
          o.values[flatIndex shape (leading ++ [last])]? = some (o.matrix.entry r c)) := by
  refine ⟨fun coords h => ⟨flatIndex?_eq hpos coords, flatIndex_lt hpos h⟩, fun hvolume => ?_⟩
  refine ⟨fun coords _ => flatIndexWord?_eq hpos hvolume.le coords,
    fun x y hx hy => flatIndex_eq_iff hpos hvolume.le hx hy, bijOn_flatIndex hpos hvolume.le, ?_⟩
  rintro o rfl leading last h
  refine ⟨List.getLast?_eq_getLast_of_ne_nil o.shape_ne_nil, rfl,
    o.exists_cell hvolume.le leading last ?_⟩
  rw [List.length_dropLast]
  omega

theorem flatIndex_numbers_nine :
    (∀ d ∈ [3, 3], 0 < d) ∧ volume [3, 3] < UInt64.size ∧
      flatIndex [3, 3] [4, 8] = flatIndex [3, 3] [1, 2] ∧
      flatIndexWord? [3, 3] [4, 8] = some (flatIndex [3, 3] [4, 8]) ∧
      ∃ (r : Fin Addressing.nineNumbers.matrix.rows) (c : Fin Addressing.nineNumbers.matrix.cols),
        r.val = 1 ∧ c.val = 2 ∧ Addressing.nineNumbers.values[flatIndex [3, 3] ([4] ++ [8])]? =
          some (Addressing.nineNumbers.matrix.entry r c) := by
  have hpos : ∀ d ∈ [3, 3], 0 < d := by decide
  have hvolume : volume [3, 3] < UInt64.size := by decide
  obtain ⟨hwords, hsame, -, hcells⟩ := (flatIndex_numbers hpos).2 hvolume
  obtain ⟨-, -, r, c, hr, hc, -, hentry⟩ := hcells Addressing.nineNumbers rfl [4] 8 rfl
  exact ⟨hpos, hvolume, (hsame [4, 8] [1, 2] rfl rfl).2 (by decide), hwords [4, 8] rfl, r, c, hr, hc,
    hentry⟩

end TangledPrograms
