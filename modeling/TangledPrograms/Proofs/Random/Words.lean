import TangledPrograms.Proofs.Random.Fair
import Mathlib.Algebra.Order.Floor.Div
import Mathlib.Data.Set.Card
import Mathlib.Order.Interval.Finset.Nat

/-!
# Words for a choice

The words that a bounded draw accepts for a value follow each other, and there are as many of them for
each value: a power of two that depends on the range only. So a fair choice takes each of its members
for the same number of words.
-/

namespace TangledPrograms.Draw

section words

variable {w : Width} {n i v : ℕ}

theorem Width.size_eq (w : Width) : w.size = 2 ^ w.bits := by cases w <;> rfl

/-- The exponent of the share of words that each value below `n` gets. -/
def spare (w : Width) (n : ℕ) : ℕ := w.bits - (n.log2 + 1)

theorem acceptance_add_one (hn : 0 < n) : acceptance w n + 1 = n * 2 ^ spare w n := by
  have hpos : 0 < n * 2 ^ spare w n := Nat.mul_pos hn (Nat.two_pow_pos _)
  rw [acceptance, Nat.shiftLeft_eq, ← spare]
  omega

/-- The accepted words do not go beyond the last one. -/
theorem mul_spare_le (hn : 0 < n) (hsize : n < w.size) : n * 2 ^ spare w n ≤ w.size := by
  rw [Width.size_eq] at hsize ⊢
  have hlog : n.log2 < w.bits := (Nat.log2_lt hn.ne').2 hsize
  have hbits : w.bits = n.log2 + 1 + spare w n := by
    rw [spare]
    omega
  calc n * 2 ^ spare w n ≤ 2 ^ (n.log2 + 1) * 2 ^ spare w n :=
        Nat.mul_le_mul_right _ Nat.lt_log2_self.le
    _ = 2 ^ w.bits := by rw [← Nat.pow_add, ← hbits]

theorem accept?_eq_some_iff (hi : i < n) (hsize : n < w.size) :
    accept? w n v = some i ↔ i * w.size ≤ v * n ∧ v * n < i * w.size + n * 2 ^ spare w n := by
  have hn : 0 < n := Nat.zero_lt_of_lt hi
  have hacceptance := acceptance_add_one (w := w) hn
  have hfits := mul_spare_le hn hsize
  have hw : 0 < w.size := Nat.zero_lt_of_lt hsize
  have hdivmod := Nat.div_add_mod (v * n) w.size
  have hmod := Nat.mod_lt (v * n) hw
  rw [accept?, Option.ite_none_right_eq_some, Option.some_inj]
  constructor
  · rintro ⟨haccept, rfl⟩
    rw [Nat.mul_comm (v * n / w.size)]
    omega
  · rintro ⟨hlow, hhigh⟩
    have hdiv : v * n / w.size = i := by
      rw [Nat.div_eq_iff hw]
      omega
    refine ⟨?_, hdiv⟩
    rw [hdiv, Nat.mul_comm w.size] at hdivmod
    omega

/-- The first word that stands for `i`. -/
def firstWord (w : Width) (n i : ℕ) : ℕ := i * w.size ⌈/⌉ n

/-- The words that stand for a value follow each other. -/
theorem accept?_eq_some_iff_mem_Ico (hi : i < n) (hsize : n < w.size) :
    accept? w n v = some i ↔ v ∈ Set.Ico (firstWord w n i) (firstWord w n i + 2 ^ spare w n) := by
  have hn : 0 < n := Nat.zero_lt_of_lt hi
  have hlow : i * w.size ≤ v * n ↔ firstWord w n i ≤ v := by
    rw [firstWord, ceilDiv_le_iff_le_mul hn, Nat.mul_comm v]
  have hhigh : i * w.size + n * 2 ^ spare w n ≤ v * n ↔ firstWord w n i + 2 ^ spare w n ≤ v := by
    by_cases hv : 2 ^ spare w n ≤ v
    · obtain ⟨u, rfl⟩ := Nat.exists_eq_add_of_le' hv
      rw [Nat.add_mul, Nat.mul_comm n, Nat.add_le_add_iff_right, Nat.add_le_add_iff_right,
        firstWord, ceilDiv_le_iff_le_mul hn, Nat.mul_comm n]
    · have hmul : ¬ n * 2 ^ spare w n ≤ v * n := fun h =>
        hv (Nat.le_of_mul_le_mul_left (by rwa [Nat.mul_comm v] at h) hn)
      omega
  rw [accept?_eq_some_iff hi hsize, Set.mem_Ico, hlow, ← Nat.not_le, hhigh, Nat.not_le]

/-- The words that stand for a value are words of the width. -/
theorem firstWord_add_le (hi : i < n) (hsize : n < w.size) :
    firstWord w n i + 2 ^ spare w n ≤ w.size := by
  have hpos := Nat.two_pow_pos (spare w n)
  have hlast := (accept?_eq_some_iff_mem_Ico (v := firstWord w n i + 2 ^ spare w n - 1) hi hsize).2
    ⟨by omega, by omega⟩
  have hhigh := ((accept?_eq_some_iff hi hsize).1 hlast).2
  have hfits := mul_spare_le (Nat.zero_lt_of_lt hi) hsize
  by_contra hout
  have hproduct : w.size * n ≤ (firstWord w n i + 2 ^ spare w n - 1) * n :=
    Nat.mul_le_mul_right _ (by omega)
  have hvalue : w.size * (i + 1) ≤ w.size * n := Nat.mul_le_mul_left _ hi
  rw [Nat.mul_succ, Nat.mul_comm w.size i] at hvalue
  omega

/-- The word of the given width that a full word gives. -/
theorem answers_upper (w : Width) (x : UInt64) :
    (wordOf w).Answers [x] (x.toNat >>> (64 - w.bits)) := (answers_word x).then_pure

/-- The only word of a source decides the draw if it is accepted, and else the draw starves. -/
theorem accept?_of_below_ofWords (hn : n ≠ 0) {x : UInt64} {s : Source}
    (h : below w n (.ofWords [x]) = .ok (i, s)) :
    accept? w n (x.toNat >>> (64 - w.bits)) = some i := by
  cases haccept : accept? w n (x.toNat >>> (64 - w.bits)) with
  | some j =>
    rw [answers_below hn (answers_upper w x) haccept _ (Source.shows_ofWords [x])] at h
    cases h
    rfl
  | none =>
    have hnone := (answers_upper w x).then_pure (g := accept? w n)
    rw [haccept] at hnone
    rw [below, if_neg hn, untilSome, bind_apply] at h
    change retry _ ((Source.ofWords [x]).remaining + 1) _ = _ at h
    rw [retry, bind_apply, hnone _ (Source.shows_ofWords [x])] at h
    cases h

theorem answers_below_iff (hn : n ≠ 0) (x : UInt64) :
    (below w n).Answers [x] i ↔ accept? w n (x.toNat >>> (64 - w.bits)) = some i :=
  ⟨fun h => accept?_of_below_ofWords hn (h _ (Source.shows_ofWords [x])),
    answers_below hn (answers_upper w x)⟩

theorem ncard_setOf_toNat {low high : ℕ} (h : high ≤ UInt64.size) :
    {x : UInt64 | low ≤ x.toNat ∧ x.toNat < high}.ncard = high - low := by
  have himage : UInt64.toNat '' {x | low ≤ x.toNat ∧ x.toNat < high} = Finset.Ico low high := by
    ext k
    simp only [Set.mem_image, Set.mem_ofPred_eq, Finset.coe_Ico, Set.mem_Ico]
    constructor
    · rintro ⟨x, hx, rfl⟩
      exact hx
    · intro hk
      have hof : (UInt64.ofNat k).toNat = k := UInt64.toNat_ofNat_of_lt' (hk.2.trans_le h)
      exact ⟨.ofNat k, by rwa [hof], hof⟩
  rw [← Set.ncard_image_of_injective _ fun _ _ => UInt64.toNat_inj.1, himage,
    Set.ncard_coe_finset, Nat.card_Ico]

/-- Every value is decided by the same number of words. -/
theorem ncard_answers_below (hi : i < n) (hsize : n < w.size) :
    {x : UInt64 | (below w n).Answers [x] i}.ncard = 2 ^ (63 - n.log2) := by
  have hn : 0 < n := Nat.zero_lt_of_lt hi
  have hlog : n.log2 < w.bits := (Nat.log2_lt hn.ne').2 (w.size_eq ▸ hsize)
  have hbits : w.bits ≤ 64 := by cases w <;> decide
  -- A full word stands for `i` if its upper bits do, so these words follow each other too.
  have hset : {x : UInt64 | (below w n).Answers [x] i} = {x : UInt64 |
      firstWord w n i * 2 ^ (64 - w.bits) ≤ x.toNat ∧
        x.toNat < (firstWord w n i + 2 ^ spare w n) * 2 ^ (64 - w.bits)} := by
    ext x
    rw [Set.mem_ofPred_eq, Set.mem_ofPred_eq, answers_below_iff hn.ne',
      accept?_eq_some_iff_mem_Ico hi hsize, Set.mem_Ico, Nat.shiftRight_eq_div_pow,
      Nat.le_div_iff_mul_le (Nat.two_pow_pos _), Nat.div_lt_iff_lt_mul (Nat.two_pow_pos _)]
  have hhigh : (firstWord w n i + 2 ^ spare w n) * 2 ^ (64 - w.bits) ≤ UInt64.size := by
    calc _ ≤ 2 ^ w.bits * 2 ^ (64 - w.bits) :=
          Nat.mul_le_mul_right _ (w.size_eq ▸ firstWord_add_le hi hsize)
      _ = UInt64.size := by rw [← Nat.pow_add, Nat.add_sub_cancel' hbits]
  have hexponent : spare w n + (64 - w.bits) = 63 - n.log2 := by
    rw [spare]
    omega
  rw [hset, ncard_setOf_toNat hhigh, Nat.add_mul, Nat.add_sub_cancel_left, ← Nat.pow_add, hexponent]

end words

/-- The members of a set from which a fair choice is made are chosen by equally many words each. -/
theorem Fair.ncard_answers {α : Type} {x : Draw α} {S : Set α} (h : x.Fair S) {a b : α} (ha : a ∈ S)
    (hb : b ∈ S) :
    {word : UInt64 | x.Answers [word] a}.ncard = {word : UInt64 | x.Answers [word] b}.ncard := by
  cases h with
  | only c => rw [Set.mem_singleton_iff.1 ha, Set.mem_singleton_iff.1 hb]
  | @drawn w n pick S hn hsize hpick =>
    have hwords : ∀ i < n, {word : UInt64 |
        (below w n >>= fun i => pure (pick i)).Answers [word] (pick i)} =
          {word | (below w n).Answers [word] i} := by
      intro i hi
      ext word
      refine ⟨fun h => ?_, fun h => Answers.then_pure h⟩
      obtain ⟨j, s, hj, hpure⟩ := exists_of_bind (h _ (Source.shows_ofWords [word]))
      have hsame : pick j = pick i := congrArg Prod.fst (Except.ok.inj hpure)
      obtain rfl := hpick.injOn (ensures_below w n _ j s hj) hi hsame
      exact (answers_below_iff hn word).2 (accept?_of_below_ofWords hn hj)
    obtain ⟨i, hi, rfl⟩ := hpick.surjOn ha
    obtain ⟨j, hj, rfl⟩ := hpick.surjOn hb
    rw [hwords i hi, hwords j hj, ncard_answers_below hi hsize, ncard_answers_below hj hsize]

end TangledPrograms.Draw
