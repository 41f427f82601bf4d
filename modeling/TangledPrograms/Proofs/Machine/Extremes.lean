import TangledPrograms.Machine.Vector
import TangledPrograms.Proofs.Number.Order
import Mathlib.Order.OrderDual

/-!
# Extremes and their places

The reductions to the largest and the smallest number of a vector fold over it and pass over NaN; the
reductions to a place scan it and compare every number with the one that leads so far. Both go by the
rank of the numbers. A comparison with NaN is never true, so the scan passes over NaN as the fold
does, with one exception: it starts with the first number in the lead, whatever it is, and a NaN there
stays in the lead. So the place belongs to the extreme if and only if the first number is not NaN.
-/

namespace TangledPrograms.Machine.Vector

open Number (isNaN_of_lt isNaN_of_beq)

/-- A number that equals `m` is at place `i`, and none is at an earlier place. -/
def FirstAt (y : List Float) (m : Float) (i : ℕ) : Prop :=
  (∃ v, y[i]? = some v ∧ (v == m) = true) ∧ ∀ a ∈ y.take i, (a == m) = false

/-- The better of two numbers, where NaN counts for nothing. -/
def pick (better : Float → Float → Bool) (a b : Float) : Float :=
  if a.isNaN then b else if b.isNaN then a else if better b a then b else a

theorem larger_eq_pick : larger = pick fun a b => b < a := by
  funext a b
  simp only [larger, pick, decide_eq_true_eq]

theorem smaller_eq_pick : smaller = pick fun a b => a < b := by
  funext a b
  simp only [smaller, pick, decide_eq_true_eq]

section

variable {κ : Type*} [LinearOrder κ]

/-- A comparison goes by a rank, and NaN has no place in it. -/
structure Ranks (better : Float → Float → Bool) (rank : Float → κ) : Prop where
  better_iff (a b : Float) :
    better a b = true ↔ (a.isNaN = false ∧ b.isNaN = false) ∧ rank b < rank a
  beq_iff (a b : Float) :
    (a == b) = true ↔ (a.isNaN = false ∧ b.isNaN = false) ∧ rank a = rank b

/-- A number of the list that no number of it outranks. -/
structure Best (rank : Float → κ) (l : List Float) (m : Float) : Prop where
  isNaN : m.isNaN = false
  mem : m ∈ l
  le : ∀ a ∈ l, a.isNaN = false → rank a ≤ rank m

/-- The first number of the list that no number of it outranks is at place `i`. -/
structure FirstBest (rank : Float → κ) (l : List Float) (i : ℕ) (m : Float) : Prop
    extends Best rank l m where
  place : l[i]? = some m
  lt : ∀ a ∈ l.take i, a.isNaN = false → rank a < rank m

variable {better : Float → Float → Bool} {rank : Float → κ} {l y : List Float} {i : ℕ}
variable {a m v w : Float}

theorem Ranks.not_better (hr : Ranks better rank) (hm : m.isNaN = false) (h : ¬ better a m = true)
    (ha : a.isNaN = false) : rank a ≤ rank m := by
  rw [hr.better_iff] at h
  exact not_lt.1 fun hlt => h ⟨⟨ha, hm⟩, hlt⟩

/-- NaN stays in the lead. -/
theorem Ranks.bestPlaceFrom_of_isNaN (hr : Ranks better rank) (ha : a.isNaN = true) (i k : ℕ) :
    ∀ rest : List Float, bestPlaceFrom better i a k rest = i
  | [] => rfl
  | b :: rest => by
    have hbetter : ¬ better b a = true := fun h =>
      Bool.false_ne_true (((hr.better_iff b a).1 h).1.2.symm.trans ha)
    rw [bestPlaceFrom, if_neg hbetter]
    exact hr.bestPlaceFrom_of_isNaN ha i (k + 1) rest

/-- Next to a number, NaN is not picked, and it is not better either. -/
theorem Ranks.pick_eq (hr : Ranks better rank) (hm : m.isNaN = false) (a : Float) :
    pick better m a = if better a m then a else m := by
  rw [pick, hm, if_neg Bool.false_ne_true]
  split
  · rename_i ha
    have hbetter : ¬ better a m = true := fun h =>
      Bool.false_ne_true (((hr.better_iff a m).1 h).1.1.symm.trans ha)
    rw [if_neg hbetter]
  · rfl

theorem Best.single (hw : w.isNaN = false) : Best rank [w] w where
  isNaN := hw
  mem := List.mem_singleton_self w
  le a ha _ := by rw [List.mem_singleton.1 ha]

/-- One more number takes the lead if it is better. -/
theorem Best.append (h : Best rank l m) (hr : Ranks better rank) (a : Float) :
    Best rank (l ++ [a]) (if better a m then a else m) := by
  split
  · rename_i hbetter
    obtain ⟨⟨ha, _⟩, hlt⟩ := (hr.better_iff a m).1 hbetter
    refine ⟨ha, by simp, fun b hb hnum => ?_⟩
    rcases List.mem_append.1 hb with hb | hb
    · exact (h.le b hb hnum).trans hlt.le
    · rw [List.mem_singleton.1 hb]
  · rename_i hbetter
    refine ⟨h.isNaN, List.mem_append_left _ h.mem, fun b hb hnum => ?_⟩
    rcases List.mem_append.1 hb with hb | hb
    · exact h.le b hb hnum
    · obtain rfl := List.mem_singleton.1 hb
      exact hr.not_better h.isNaN hbetter hnum

theorem Best.foldl_pick (hr : Ranks better rank) (h : Best rank l m) :
    Best rank (l ++ y) (y.foldl (pick better) m) := by
  -- `l` is what has been picked from so far.
  induction y generalizing l m with
  | nil => rwa [List.append_nil]
  | cons a y ih =>
    have hstep := h.append hr a
    rw [← hr.pick_eq h.isNaN] at hstep
    rw [List.foldl_cons, List.append_cons]
    exact ih hstep

theorem FirstBest.single (ha : a.isNaN = false) : FirstBest rank [a] 0 a where
  toBest := .single ha
  place := rfl
  lt _ hb := by cases hb

theorem FirstBest.lt_length (h : FirstBest rank l i m) : i < l.length :=
  (List.getElem?_eq_some_iff.1 h.place).1

/-- One more number takes the lead at its own place if it is better than all before it. -/
theorem FirstBest.append (h : FirstBest rank l i m) (hr : Ranks better rank) (a : Float) :
    FirstBest rank (l ++ [a]) (if better a m then l.length else i) (if better a m then a else m) := by
  refine ⟨h.toBest.append hr a, ?_, ?_⟩
  · split
    · exact List.getElem?_concat_length
    · rw [List.getElem?_append_left h.lt_length, h.place]
  · split
    · rename_i hbetter
      intro b hb hnum
      rw [List.take_left] at hb
      exact (h.le b hb hnum).trans_lt ((hr.better_iff a m).1 hbetter).2
    · intro b hb hnum
      rw [List.take_append_of_le_length h.lt_length.le] at hb
      exact h.lt b hb hnum

theorem FirstBest.bestPlaceFrom (hr : Ranks better rank) (h : FirstBest rank l i m) :
    ∃ v, FirstBest rank (l ++ y) (bestPlaceFrom better i m l.length y) v := by
  induction y generalizing l i m with
  | nil =>
    rw [List.append_nil]
    exact ⟨m, h⟩
  | cons a y ih =>
    have hstep := ih (h.append hr a)
    rw [List.append_cons, Vector.bestPlaceFrom]
    rw [List.length_append, List.length_singleton] at hstep
    split
    · rename_i hbetter
      rwa [if_pos hbetter, if_pos hbetter] at hstep
    · rename_i hbetter
      rwa [if_neg hbetter, if_neg hbetter] at hstep

/-- From a number on, the scan ends with the first of the best. -/
theorem firstBest_bestPlace (hr : Ranks better rank) (ha : a.isNaN = false) (rest : List Float) :
    ∃ v, FirstBest rank (a :: rest) (bestPlace better (a :: rest)) v :=
  (FirstBest.single ha).bestPlaceFrom hr

/-- The best of the numbers and of one that all of them outrank is the best of the numbers. -/
theorem FirstBest.rank_eq (h : FirstBest rank y i v) (hm : Best rank (w :: y) m)
    (hworst : ∀ a : Float, a.isNaN = false → rank w ≤ rank a) : rank v = rank m := by
  have hvm : rank v ≤ rank m := hm.le v (List.mem_cons_of_mem w h.mem) h.isNaN
  have hmv : rank m ≤ rank v := by
    rcases List.mem_cons.1 hm.mem with rfl | hmem
    · exact hworst v h.isNaN
    · exact h.le m hmem hm.isNaN
  exact hvm.antisymm hmv

theorem FirstBest.firstAt (hr : Ranks better rank) (h : FirstBest rank y i v) (hm : m.isNaN = false)
    (heq : rank v = rank m) : FirstAt y m i := by
  refine ⟨⟨v, h.place, (hr.beq_iff v m).2 ⟨⟨h.isNaN, hm⟩, heq⟩⟩, fun a ha => ?_⟩
  rw [Bool.eq_false_iff]
  intro hbeq
  obtain ⟨⟨hnum, _⟩, ham⟩ := (hr.beq_iff a m).1 hbeq
  exact (h.lt a ha hnum).ne (ham.trans heq.symm)

/-- Among numbers of which some is not NaN, the scan ends at the first place of what the fold yields
if and only if it does not start with NaN. -/
theorem firstAt_bestPlace_iff (hr : Ranks better rank) (hw : w.isNaN = false)
    (hworst : ∀ a : Float, a.isNaN = false → rank w ≤ rank a) (hy : ∃ a ∈ y, a.isNaN = false) :
    FirstAt y (y.foldl (pick better) w) (bestPlace better y) ↔
      ∀ a, y.head? = some a → a.isNaN = false := by
  have hm : Best rank (w :: y) (y.foldl (pick better) w) := (Best.single hw).foldl_pick hr
  cases y with
  | nil =>
    obtain ⟨a, ha, _⟩ := hy
    cases ha
  | cons a rest =>
    constructor
    · -- NaN in front keeps the lead, and nothing equals NaN.
      rintro ⟨⟨v, hv, hbeq⟩, _⟩ b hb
      obtain rfl : a = b := by simpa using hb
      by_contra hnan
      rw [bestPlace, hr.bestPlaceFrom_of_isNaN (by simpa using hnan)] at hv
      obtain rfl : a = v := by simpa using hv
      exact hnan ((hr.beq_iff _ _).1 hbeq).1.1
    · intro hhead
      obtain ⟨v, hv⟩ := firstBest_bestPlace hr (hhead a rfl) rest
      exact hv.firstAt hr hm.isNaN (hv.rank_eq hm hworst)

end

def rankOf (a : Float) : ℤ ×ₗ ℤ ×ₗ ℤ := Number.rank a.toModel.unpack

theorem lt_iff_rankOf (a b : Float) :
    a < b ↔ (a.isNaN = false ∧ b.isNaN = false) ∧ rankOf a < rankOf b :=
  ⟨fun h => ⟨isNaN_of_lt h, (Number.lt_iff_rank (isNaN_of_lt h).1 (isNaN_of_lt h).2).1 h⟩,
    fun h => (Number.lt_iff_rank h.1.1 h.1.2).2 h.2⟩

theorem beq_iff_rankOf (a b : Float) :
    (a == b) = true ↔ (a.isNaN = false ∧ b.isNaN = false) ∧ rankOf a = rankOf b := by
  have heq (h : a.isNaN = false ∧ b.isNaN = false) : (a == b) = true ↔ rankOf a = rankOf b := by
    rw [Number.beq_iff_not_lt h.1 h.2, Number.lt_iff_rank h.1 h.2, Number.lt_iff_rank h.2 h.1,
      not_lt, not_lt, and_comm, ← le_antisymm_iff]
    rfl
  exact ⟨fun h => ⟨isNaN_of_beq h, (heq (isNaN_of_beq h)).1 h⟩, fun h => (heq h.1).2 h.2⟩

theorem ranks_larger : Ranks (fun a b => b < a) rankOf where
  better_iff a b := by rw [decide_eq_true_eq, lt_iff_rankOf, and_comm (a := b.isNaN = false)]
  beq_iff := beq_iff_rankOf

theorem ranks_smaller : Ranks (fun a b => a < b) (OrderDual.toDual ∘ rankOf) where
  better_iff a b := by rw [decide_eq_true_eq, lt_iff_rankOf]; rfl
  beq_iff := beq_iff_rankOf

private theorem unpack_negInfinity :
    (-1.0 / 0.0 : Float).toModel.unpack = .infinity .negative := rfl

private theorem unpack_infinity : (1.0 / 0.0 : Float).toModel.unpack = .infinity .positive := rfl

theorem rankOf_negInfinity_le (a : Float) : rankOf (-1.0 / 0.0) ≤ rankOf a := by
  rw [rankOf, unpack_negInfinity]
  exact Number.rank_negative_le _

theorem rankOf_le_infinity (a : Float) : rankOf a ≤ rankOf (1.0 / 0.0) := by
  rw [rankOf, rankOf, unpack_infinity]
  exact Number.le_rank_positive _

/-- The reductions to the place of the largest and of the smallest number yield, for every vector in
which some number is not NaN, the first place that holds what the reduction to that number yields, if
and only if the vector does not start with NaN. -/
theorem firstAt_reduce_iff (x y : List Float) (hy : ∃ a ∈ y, a.isNaN = false) :
    ∃ largest smallest : Float,
      reduce .max x y = some largest ∧ reduce .min x y = some smallest ∧
      reduce .argMax x y = some (.ofNat (bestPlace (fun a b => b < a) y)) ∧
      reduce .argMin x y = some (.ofNat (bestPlace (fun a b => a < b) y)) ∧
      (FirstAt y largest (bestPlace (fun a b => b < a) y) ↔
        ∀ a, y.head? = some a → a.isNaN = false) ∧
      (FirstAt y smallest (bestPlace (fun a b => a < b) y) ↔
        ∀ a, y.head? = some a → a.isNaN = false) := by
  refine ⟨_, _, rfl, rfl, rfl, rfl, ?_, ?_⟩
  · rw [larger_eq_pick]
    exact firstAt_bestPlace_iff ranks_larger (by decide) (fun a _ => rankOf_negInfinity_le a) hy
  · rw [smaller_eq_pick]
    exact firstAt_bestPlace_iff ranks_smaller (by decide) (fun a _ => rankOf_le_infinity a) hy

/-- The vector has equal numbers, both zeros, infinities and NaN, and starts with a number. -/
theorem firstAt_reduce_scattered :
    let y : List Float := [2.0, 0.0 / 0.0, -0.0, 1.0 / 0.0, 0.0 / 0.0, 0.0, 1.0 / 0.0]
    (∃ a ∈ y, a.isNaN = false) ∧ FirstAt y (y.foldl larger (-1.0 / 0.0)) 3 ∧
      FirstAt y (y.foldl smaller (1.0 / 0.0)) 2 := by
  intro y
  have hy : ∃ a ∈ y, a.isNaN = false := ⟨2.0, List.mem_cons_self, by decide⟩
  have hhead : ∀ a, y.head? = some a → a.isNaN = false := by
    rintro a ⟨⟩
    decide
  obtain ⟨largest, smallest, hlargest, hsmallest, _, _, htop, hbottom⟩ := firstAt_reduce_iff y y hy
  obtain rfl : y.foldl larger (-1.0 / 0.0) = largest := Option.some.inj hlargest
  obtain rfl : y.foldl smaller (1.0 / 0.0) = smallest := Option.some.inj hsmallest
  have hmax : bestPlace (fun a b => b < a) y = 3 := by decide
  have hmin : bestPlace (fun a b => a < b) y = 2 := by decide
  rw [hmax] at htop
  rw [hmin] at hbottom
  exact ⟨hy, htop.2 hhead, hbottom.2 hhead⟩

/-- NaN at the start hides the numbers after it from the scans, but not from the folds. -/
theorem not_firstAt_behind_nan :
    let y : List Float := [0.0 / 0.0, 1.0]
    (∃ a ∈ y, a.isNaN = false) ∧
      (reduce .argMax y y = some (.ofNat 0) ∧ reduce .max y y = some (y.foldl larger (-1.0 / 0.0)) ∧
        (y.foldl larger (-1.0 / 0.0) == 1.0) = true ∧
        ¬ FirstAt y (y.foldl larger (-1.0 / 0.0)) 0) ∧
      reduce .argMin y y = some (.ofNat 0) ∧ reduce .min y y = some (y.foldl smaller (1.0 / 0.0)) ∧
        (y.foldl smaller (1.0 / 0.0) == 1.0) = true ∧
        ¬ FirstAt y (y.foldl smaller (1.0 / 0.0)) 0 := by
  intro y
  have hnan {m : Float} : ¬ FirstAt y m 0 := by
    rintro ⟨⟨v, ⟨⟩, hbeq⟩, _⟩
    exact absurd (isNaN_of_beq hbeq).1 (by decide)
  have hmax : bestPlace (fun a b => b < a) y = 0 := by decide
  have hmin : bestPlace (fun a b => a < b) y = 0 := by decide
  refine ⟨⟨1.0, by simp [y], by decide⟩, ⟨?_, rfl, by decide, hnan⟩, ?_, rfl, by decide, hnan⟩
  · rw [reduce, hmax]
  · rw [reduce, hmin]

end TangledPrograms.Machine.Vector
