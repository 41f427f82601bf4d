import TangledPrograms.Proofs.Random.Spans
import Mathlib.Data.Set.Function
import Mathlib.Data.Set.Lattice.Image
import Mathlib.Data.Set.Pairwise.Lattice

/-!
# Choices without bias

A choice that maps the values of one bounded draw one to one to what there is to choose from favours
nothing. That is how a member of a list is chosen, and how a value is resampled: the values from the
current one on move up by one place, so that none is lost and none comes twice. Choices may be made one
after the other, each depending on those before.
-/

namespace TangledPrograms.Draw

variable {α : Type} {x : Draw α} {S : Set α}

/-- One bounded draw decides, and each member of the set comes from exactly one of its values. If the
set has a single member, nothing needs to be drawn. -/
inductive Fair : Draw α → Set α → Prop where
  | drawn {w : Width} {n : ℕ} {pick : ℕ → α} {S : Set α} (hn : n ≠ 0) (hsize : n < w.size)
    (hpick : Set.BijOn pick (Set.Iio n) S) : Fair (below w n >>= fun i => pure (pick i)) S
  | only (a : α) : Fair (pure a) {a}

/-- Exactly the members of the set are chosen. -/
theorem Fair.spans (h : x.Fair S) : x.Spans (· ∈ S) := by
  cases h with
  | drawn hn hsize hpick =>
    refine ((spans_below hn hsize.le).then_pure _).congr fun a => ⟨?_, fun ha => ?_⟩
    · rintro ⟨i, hi, rfl⟩
      exact hpick.mapsTo hi
    · obtain ⟨i, hi, rfl⟩ := hpick.surjOn ha
      exact ⟨i, hi, rfl⟩
  | only a => exact .pure a

theorem Fair.yields (h : x.Fair S) : x.Yields (· ∈ S) := by
  cases h with
  | drawn hn _ hpick => exact (yields_below hn).bind fun _ hi => .pure (hpick.mapsTo hi)
  | only a => exact .pure rfl

theorem Fair.canAnswer (h : x.Fair S) : x.CanAnswer := by
  cases h with
  | drawn hn => exact (canAnswer_below hn).bind fun _ => .pure _
  | only a => exact .pure a

theorem fair_below {w : Width} {n : ℕ} (hn : n ≠ 0) (hsize : n < w.size) :
    (below w n).Fair (Set.Iio n) := by
  have h := Fair.drawn hn hsize (Set.bijOn_id (Set.Iio n))
  rwa [show (below w n >>= fun i => pure (id i)) = below w n from bind_pure _] at h

/-- A choice may be told in other terms. -/
theorem Fair.map {β : Type} {g : α → β} (h : x.Fair S) (hg : Set.InjOn g S) :
    (x >>= fun a => pure (g a)).Fair (g '' S) := by
  cases h with
  | drawn hn hsize hpick =>
    simp only [bind_assoc, pure_bind]
    exact .drawn hn hsize (hg.bijOn_image.comp hpick)
  | only a =>
    rw [pure_bind, Set.image_singleton]
    exact .only _

/-- A target is chosen step by step, each time by a fair choice, and it tells how. -/
inductive Unbiased : Draw α → Set α → Prop where
  | fair {x : Draw α} {S : Set α} (h : x.Fair S) : Unbiased x S
  | step {β : Type} {x : Draw β} {S : Set β} {f : β → Draw α} {T : β → Set α} (hx : x.Fair S)
    (hf : ∀ b ∈ S, Unbiased (f b) (T b)) (hT : S.PairwiseDisjoint T) :
    Unbiased (x >>= f) (⋃ b ∈ S, T b)

/-- Exactly the targets of the set are chosen. -/
theorem Unbiased.spans (h : x.Unbiased S) : x.Spans (· ∈ S) := by
  induction h with
  | fair h => exact h.spans
  | step hx _ _ ih =>
    refine (hx.spans.bind ih).congr fun a => ?_
    simp only [Set.mem_iUnion, exists_prop]

theorem Unbiased.map {β : Type} {g : α → β} (h : x.Unbiased S) (hg : Set.InjOn g S) :
    (x >>= fun a => pure (g a)).Unbiased (g '' S) := by
  induction h with
  | fair h => exact .fair (h.map hg)
  | @step γ x S f T hx hf hT ih =>
    have hsub : ∀ c ∈ S, T c ⊆ ⋃ c ∈ S, T c := fun c hc => Set.subset_biUnion_of_mem hc
    rw [bind_assoc, Set.image_iUnion₂]
    refine .step hx (fun c hc => ih c hc (hg.mono (hsub c hc))) fun c hc d hd hne => ?_
    refine Set.disjoint_left.2 ?_
    rintro _ ⟨a, ha, rfl⟩ ⟨b, hb, heq⟩
    obtain rfl := hg (hsub d hd hb) (hsub c hc ha) heq
    exact Set.disjoint_left.1 (hT hc hd hne) ha hb

/-- A choice, and then another one that may depend on it. -/
theorem Fair.pair {β : Type} {f : α → Draw β} {T : α → Set β} (hx : x.Fair S)
    (hf : ∀ a ∈ S, (f a).Unbiased (T a)) :
    (do let a ← x; let b ← f a; pure (a, b)).Unbiased {p | p.1 ∈ S ∧ p.2 ∈ T p.1} := by
  have hset : {p : α × β | p.1 ∈ S ∧ p.2 ∈ T p.1} = ⋃ a ∈ S, Prod.mk a '' T a := by
    ext ⟨a, b⟩
    simp [and_comm]
  rw [hset]
  refine .step hx (fun a ha => (hf a ha).map (Prod.mk_right_injective a).injOn) ?_
  intro a _ c _ hne
  refine Set.disjoint_left.2 ?_
  rintro _ ⟨b, -, rfl⟩ ⟨d, -, heq⟩
  exact hne (congrArg Prod.fst heq).symm

/-- Every member of a list without repetitions is chosen alike. -/
theorem fair_choose {l : List α} (hl : l ≠ []) (hnodup : l.Nodup) (hlength : l.length < UInt64.size) :
    (choose l).Fair (some '' {a | a ∈ l}) := by
  have hsize : l.length < (Width.ofLength l.length).size := by
    rw [Width.ofLength]
    split
    · assumption
    · exact hlength
  rw [choose_of_ne_nil hl]
  refine .drawn (mt List.length_eq_zero_iff.1 hl) hsize ⟨fun i hi => ?_, fun i hi j hj hij => ?_, ?_⟩
  · exact ⟨l[i], List.getElem_mem hi, (List.getElem?_eq_getElem hi).symm⟩
  · exact (List.getElem?_inj hi hnodup).1 hij
  · rintro _ ⟨a, ha, rfl⟩
    obtain ⟨i, hi, rfl⟩ := List.getElem_of_mem ha
    exact ⟨i, hi, List.getElem?_eq_getElem hi⟩

section resample

variable {range current : UInt32}

/-- A value below the range other than the current one, or nothing if there is none. -/
def Resampled (range current : UInt32) : Option UInt32 → Prop
  | none => ∀ v < range, v = current
  | some v => v < range ∧ v ≠ current

/-- There is no other value below the range. -/
theorem eq_current_iff : (∀ v < range, v = current) ↔ range = 0 ∨ range = 1 ∧ current = 0 := by
  constructor
  · intro h
    by_cases hzero : range = 0
    · exact .inl hzero
    · have hpos : 0 < range.toNat := Nat.pos_of_ne_zero fun e => hzero (UInt32.toNat_inj.1 e)
      have hfirst := h 0 (UInt32.lt_iff_toNat_lt.2 hpos)
      subst hfirst
      refine .inr ⟨UInt32.toNat_inj.1 ?_, rfl⟩
      by_contra hone
      have hmany : 1 < range.toNat := by
        have : range.toNat ≠ 1 := hone
        omega
      exact absurd (h 1 (UInt32.lt_iff_toNat_lt.2 hmany)) (by decide)
  · rintro (rfl | ⟨rfl, rfl⟩) v hv
    · exact absurd (UInt32.lt_iff_toNat_lt.1 hv) (Nat.not_lt_zero _)
    · exact UInt32.toNat_inj.1 (Nat.lt_one_iff.1 (UInt32.lt_iff_toNat_lt.1 hv))

def others (range current : UInt32) : Set UInt32 := {v | v < range ∧ v ≠ current}

/-- The numbers below the range are its values. -/
theorem bijOn_ofNat (range : UInt32) :
    Set.BijOn UInt32.ofNat (Set.Iio range.toNat) {v | v < range} := by
  have htoNat {i : ℕ} (hi : i < range.toNat) : (UInt32.ofNat i).toNat = i :=
    UInt32.toNat_ofNat_of_lt' (hi.trans range.toNat_lt)
  refine ⟨fun i hi => ?_, fun i hi j hj hij => ?_, fun v hv => ⟨v.toNat, ?_, UInt32.ofNat_toNat⟩⟩
  · exact UInt32.lt_iff_toNat_lt.2 ((htoNat hi).trans_lt hi)
  · rw [← htoNat hi, ← htoNat hj, hij]
  · exact UInt32.lt_iff_toNat_lt.1 hv

/-- Skipping the current value: what lies below it stays, the rest moves up. -/
theorem bijOn_skip {n c : ℕ} (hc : c < n) :
    Set.BijOn (fun i => if c ≤ i then i + 1 else i) (Set.Iio (n - 1)) (Set.Iio n \ {c}) := by
  refine ⟨fun i hi => ?_, fun i hi j hj hij => ?_, fun k hk => ?_⟩
  · simp only [Set.mem_Iio, Set.mem_sdiff, Set.mem_singleton_iff] at hi ⊢
    split <;> omega
  · simp only at hij
    split at hij <;> split at hij <;> omega
  · simp only [Set.mem_Iio, Set.mem_sdiff, Set.mem_singleton_iff] at hk
    by_cases h : c ≤ k
    · exact ⟨k - 1, by simp only [Set.mem_Iio]; omega, by simp only; rw [if_pos] <;> omega⟩
    · exact ⟨k, by simp only [Set.mem_Iio]; omega, if_neg h⟩

/-- The values that are drawn for the others skip the current one. -/
theorem bijOn_others (h : current < range) :
    Set.BijOn (fun i => if current ≤ UInt32.ofNat i then UInt32.ofNat i + 1 else UInt32.ofNat i)
      (Set.Iio (range.toNat - 1)) (others range current) := by
  have hcurrent : current.toNat < range.toNat := UInt32.lt_iff_toNat_lt.1 h
  have hrest := (bijOn_ofNat range).sdiff_singleton hcurrent
  rw [UInt32.ofNat_toNat] at hrest
  refine (hrest.comp (bijOn_skip hcurrent)).congr fun i hi => ?_
  have htoNat : (UInt32.ofNat i).toNat = i :=
    UInt32.toNat_ofNat_of_lt' ((Nat.lt_of_lt_pred hi).trans range.toNat_lt)
  simp only [Function.comp_apply, UInt32.le_iff_toNat_le, htoNat]
  split
  · rw [UInt32.ofNat_add]
    rfl
  · rfl

theorem others_eq_empty_iff : others range current = ∅ ↔ range = 0 ∨ range = 1 ∧ current = 0 := by
  rw [← eq_current_iff, Set.eq_empty_iff_forall_notMem]
  exact forall_congr' fun v => by simp [others]

/-- There is no value at all, or the current one is the only one. -/
theorem others_eq_empty_iff_only :
    others range current = ∅ ↔ range = 0 ∨ ∀ v, v < range ↔ v = current := by
  constructor
  · intro h
    refine (others_eq_empty_iff.1 h).imp_right ?_
    rintro ⟨rfl, rfl⟩ v
    rw [UInt32.lt_iff_toNat_lt, ← UInt32.toNat_inj]
    exact Nat.lt_one_iff
  · intro h
    rw [Set.eq_empty_iff_forall_notMem]
    rintro v ⟨hv, hne⟩
    obtain rfl | honly := h
    · exact Nat.not_lt_zero _ (UInt32.lt_iff_toNat_lt.1 hv)
    · exact hne ((honly v).1 hv)

/-- With no other value nothing is read and nothing is the answer. -/
theorem resampleDifferent_eq_none (h : others range current = ∅) :
    resampleDifferent range current = pure none := by
  rcases others_eq_empty_iff.1 h with rfl | ⟨rfl, rfl⟩ <;> rfl

/-- Each other value is resampled alike. -/
theorem fair_resampleDifferent (h : others range current ≠ ∅) :
    (resampleDifferent range current).Fair (some '' others range current) := by
  have hsize : range.toNat < Width.size .word32 := range.toNat_lt
  have hsome (T : Set UInt32) : Set.BijOn some T (some '' T) :=
    (Option.some_injective _).injOn.bijOn_image
  rw [Ne, others_eq_empty_iff, not_or, not_and] at h
  obtain ⟨hzero, hone⟩ := h
  have hpos : range.toNat ≠ 0 := fun h => hzero (UInt32.toNat_inj.1 h)
  simp only [resampleDifferent, if_neg hzero]
  split
  · -- Zero is the only value and not the current one, so no word is read.
    rename_i hrange
    subst hrange
    have hothers : others 1 current = {0} := by
      ext v
      constructor
      · rintro ⟨hv, -⟩
        exact UInt32.toNat_inj.1 (Nat.lt_one_iff.1 (UInt32.lt_iff_toNat_lt.1 hv))
      · rintro rfl
        exact ⟨by decide, Ne.symm (hone rfl)⟩
    rw [if_neg (hone rfl), hothers, Set.image_singleton]
    exact .only _
  · split
    · -- The current value lies outside, so that there is nothing to skip.
      rename_i hout
      have hothers : others range current = {v | v < range} := by
        ext v
        refine and_iff_left_of_imp fun hv => ?_
        rintro rfl
        exact absurd hv (UInt32.not_lt.2 hout)
      rw [hothers]
      exact .drawn hpos hsize ((hsome _).comp (bijOn_ofNat range))
    · rename_i hrange hin
      have hlt : current < range := UInt32.not_le.1 hin
      have hmany : range.toNat ≠ 1 := fun h => hrange (UInt32.toNat_inj.1 h)
      exact .drawn (by omega) (by omega) ((hsome _).comp (bijOn_others hlt))

/-- Resampling is fair also where there is nothing to draw. -/
theorem fair_resampled (range current : UInt32) :
    (resampleDifferent range current).Fair {o | Resampled range current o} := by
  by_cases h : others range current = ∅
  · have hset : {o | Resampled range current o} = {none} := by
      ext (_ | v)
      · exact iff_of_true (eq_current_iff.2 (others_eq_empty_iff.1 h)) rfl
      · exact iff_of_false (fun hv => (h ▸ hv : v ∈ (∅ : Set UInt32))) nofun
    rw [resampleDifferent_eq_none h, hset]
    exact .only none
  · have hset : {o | Resampled range current o} = some '' others range current := by
      ext (_ | v)
      · exact iff_of_false (fun hnone => h (others_eq_empty_iff.2 (eq_current_iff.1 hnone))) (by simp)
      · exact ⟨fun hv => ⟨v, hv, rfl⟩, by rintro ⟨_, hv, ⟨⟩⟩; exact hv⟩
    rw [hset]
    exact fair_resampleDifferent h

theorem spans_resampleDifferent (range current : UInt32) :
    (resampleDifferent range current).Spans (Resampled range current) :=
  (fair_resampled range current).spans

/-- The value lies below `range` and is another one, even if the current one does not lie below. -/
theorem yields_resampleDifferent (range current : UInt32) :
    (resampleDifferent range current).Yields fun o => ∀ v ∈ o, v < range ∧ v ≠ current := by
  refine (fair_resampled range current).yields.mono ?_
  rintro (_ | v) ho _ ⟨⟩
  exact ho

theorem canAnswer_resampleDifferent (range current : UInt32) :
    (resampleDifferent range current).CanAnswer := (fair_resampled range current).canAnswer

theorem resampleDifferent_eq_none_iff (s : Source) :
    (∃ s', resampleDifferent range current s = .ok (none, s')) ↔ others range current = ∅ := by
  constructor
  · rintro ⟨s', hs⟩
    by_contra hothers
    obtain ⟨v, -, hv⟩ := (fair_resampleDifferent hothers).spans.sound s none s' hs
    cases hv
  · intro hothers
    rw [resampleDifferent_eq_none hothers]
    exact ⟨s, rfl⟩

end resample

end TangledPrograms.Draw
