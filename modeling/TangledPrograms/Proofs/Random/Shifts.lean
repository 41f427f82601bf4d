import TangledPrograms.Proofs.Random.Chance

/-!
# Which shifts can be drawn

A uniform integer lies between its bounds, and each integer between them is drawn from some word. So
shifts are drawn that stay within the step and are not all zero, and every one of these from some words.
-/

namespace TangledPrograms.Draw

variable {α β : Type}

section lists

theorem Yields.and_ensures {x : Draw α} {P Q : α → Prop} (hx : x.Yields P) (h : x.Ensures Q) :
    x.Yields fun a => P a ∧ Q a := fun s =>
  (hx s).imp_left fun ⟨a, s', hs, ha⟩ => ⟨a, s', hs, ha, h s a s' hs⟩

/-- What is computed without words and without a fault. -/
theorem yields_ofExcept {o : Except Halt α} {a : α} {P : α → Prop} (ho : o = .ok a) (ha : P a) :
    (ofExcept o).Yields P := by
  subst ho
  exact .pure ha

theorem answers_ofExcept {o : Except Halt α} {a : α} (ho : o = .ok a) :
    (ofExcept o).Answers [] a := by
  subst ho
  exact .pure a

/-- Item by item, what the answers for a list have. -/
theorem Yields.mapM {f : α → Draw β} {R : α → β → Prop} :
    ∀ {l : List α}, (∀ a ∈ l, (f a).Yields (R a)) → (l.mapM f).Yields (List.Forall₂ R l)
  | [], _ => .pure .nil
  | a :: l, h => by
    rw [List.mapM_cons]
    refine (h a List.mem_cons_self).bind fun b hb => ?_
    refine (Yields.mapM fun a ha => h a (List.mem_cons_of_mem _ ha)).bind fun bs hbs => ?_
    exact .pure (.cons hb hbs)

/-- Words that bring each item to an answer bring the list to the answers. -/
theorem exists_answers_mapM {f : α → Draw β} {l : List α} {bs : List β}
    (h : List.Forall₂ (fun a b => ∃ words, (f a).Answers words b) l bs) :
    ∃ words, (l.mapM f).Answers words bs := by
  induction h with
  | nil => exact ⟨[], .pure []⟩
  | cons ha _ ih =>
    obtain ⟨words, ha⟩ := ha
    obtain ⟨more, ih⟩ := ih
    rw [List.mapM_cons]
    exact ⟨words ++ more, ha.bind ih.then_pure⟩

end lists

section between

variable {low high i : ℤ}

theorem yields_between (h : low ≤ high) : (between low high).Yields fun i => low ≤ i ∧ i ≤ high := by
  have hwidth : (high - low + 1).toNat ≠ 0 := by omega
  rw [between, if_neg (Int.not_lt.2 h)]
  exact (yields_below hwidth).bind fun i hi => .pure (by omega)

theorem exists_answers_between (hlow : low ≤ i) (hhigh : i ≤ high) (hwidth : high - low < 2 ^ 64) :
    ∃ w, (between low high).Answers [w] i := by
  have hsize : Width.word64.size = 2 ^ 64 := rfl
  have hi : (i - low).toNat < (high - low + 1).toNat := by omega
  obtain ⟨w, hw⟩ := exists_answers_below (w := .word64) hi (by omega)
  refine ⟨w, ?_⟩
  rw [between, if_neg (by omega)]
  have hanswer := hw.then_pure (g := fun k : ℕ => low + (k : ℤ))
  rwa [show low + ((i - low).toNat : ℤ) = i by omega] at hanswer

end between

/-- A shift along so many axes, at most by the step along each, and not along none. -/
structure IsShift (axes step : ℕ) (shift : List ℤ) : Prop where
  length : shift.length = axes
  bounded : ∀ s ∈ shift, |s| ≤ (max step 1 : ℕ)
  nonzero : axes ≠ 0 → ∃ s ∈ shift, s ≠ 0

variable {axes step : ℕ} {shift : List ℤ}

theorem yields_nonzeroShift (hstep : step < 2 ^ 63) :
    (nonzeroShift axes step).Yields (IsShift axes step) := by
  rw [nonzeroShift, signedWord_of_lt (show max step 1 < 2 ^ 63 by omega)]
  have hreach : -((max step 1 : ℕ) : ℤ) ≤ (max step 1 : ℕ) := by omega
  refine Yields.untilSome ?_
  refine (Yields.mapM fun _ _ => yields_between hreach).bind fun shift hshift => .pure ?_
  intro found hfound
  split at hfound
  · rename_i hmoved
    cases hfound
    refine ⟨?_, ?_, ?_⟩
    · simpa using hshift.length_eq.symm
    · intro s hs
      obtain ⟨k, hk, rfl⟩ := List.getElem_of_mem hs
      exact abs_le.2 (hshift.get (by simpa [hshift.length_eq] using hk) hk)
    · intro haxes
      simpa [haxes] using hmoved
  · cases hfound

theorem exists_answers_nonzeroShift (hstep : step < 2 ^ 63) (h : IsShift axes step shift) :
    ∃ words, (nonzeroShift axes step).Answers words shift := by
  rw [nonzeroShift, signedWord_of_lt (show max step 1 < 2 ^ 63 by omega)]
  have hall : List.Forall₂ (fun _ s => ∃ words,
      (between (-((max step 1 : ℕ) : ℤ)) (max step 1 : ℕ)).Answers words s)
      (List.replicate axes ()) shift := by
    rw [List.forall₂_iff_get]
    refine ⟨by simp [h.length], fun k _ hk => ?_⟩
    obtain ⟨hlow, hhigh⟩ := abs_le.1 (h.bounded _ (List.get_mem shift ⟨k, hk⟩))
    obtain ⟨w, hw⟩ := exists_answers_between hlow hhigh (by omega)
    exact ⟨[w], hw⟩
  obtain ⟨words, hwords⟩ := exists_answers_mapM hall
  have hmoved : (axes = 0 || shift.any (· != 0)) = true := by
    by_cases haxes : axes = 0
    · simp [haxes]
    · simpa [haxes] using h.nonzero haxes
  have hanswer := hwords.then_pure (g := fun shift : List ℤ =>
    if axes = 0 || shift.any (· != 0) then some shift else none)
  rw [if_pos hmoved] at hanswer
  exact ⟨_, .untilSome hanswer⟩

end TangledPrograms.Draw
