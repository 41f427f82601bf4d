import TangledPrograms.Proofs.Number.Fraction
import TangledPrograms.Proofs.Random.Ensures
import TangledPrograms.Proofs.Settings.Accepted
import TangledPrograms.Random.Normal

/-!
# What random words can and must bring about

`x.Answers words a` says that `x` answers `a`, reading just `words`, on every stream on which these
come next; a computation with such words ends on a share of all streams. `x.Yields P` says that `x`
can only fail for want of words and that `P` holds of whatever it answers; so a computation that
yields nothing goes on for ever. Coins, uniform values and normal deviates get both laws, from which
those of the computations made of them follow.
-/

namespace TangledPrograms

/-- The words that come next, within the limit. -/
structure Source.Shows (s : Source) (words : List UInt64) : Prop where
  within : s.drawn + words.length ≤ s.limit
  next : ∀ i (h : i < words.length), s.word (s.drawn + i) = words[i]

/-- The source after `n` more words. -/
def Source.advance (s : Source) (n : Nat) : Source := { s with drawn := s.drawn + n }

def Source.ofWords (words : List UInt64) : Source :=
  ⟨fun i => words.getD i 0, 0, words.length⟩

theorem Source.shows_ofWords (words : List UInt64) : (Source.ofWords words).Shows words where
  within := by simp [Source.ofWords]
  next := by
    intro i h
    simp [Source.ofWords, List.getElem?_eq_getElem h]

theorem Source.Shows.of_append {s : Source} {u v : List UInt64} (h : s.Shows (u ++ v)) :
    s.Shows u ∧ (s.advance u.length).Shows v := by
  have hlength : (u ++ v).length = u.length + v.length := List.length_append
  have hwithin := h.within
  refine ⟨⟨by omega, fun i hi => ?_⟩, ⟨by simp only [Source.advance]; omega, fun i hi => ?_⟩⟩
  · rw [h.next i (by omega), List.getElem_append_left hi]
  · have hnext := h.next (u.length + i) (by omega)
    rw [List.getElem_append_right (by omega)] at hnext
    simpa [Source.advance, Nat.add_assoc] using hnext

namespace Draw

variable {α β : Type} {x : Draw α} {f : α → Draw β} {P : α → Prop} {Q : β → Prop}

theorem bind_apply (x : Draw α) (f : α → Draw β) (s : Source) :
    (x >>= f) s = (x s).bind fun r => f r.1 r.2 := rfl

/-- An answer of two steps is one of the second, from where an answer of the first has left off. -/
theorem exists_of_bind {s s' : Source} {b : β} (h : (x >>= f) s = .ok (b, s')) :
    ∃ a s₁, x s = .ok (a, s₁) ∧ f a s₁ = .ok (b, s') := by
  rw [bind_apply] at h
  obtain ⟨⟨a, s₁⟩, hx, hf⟩ := ok_of_bind h
  exact ⟨a, s₁, hx, hf⟩

section answers

/-- On every stream that shows the words next, they are read and `a` is the answer. -/
def Answers (x : Draw α) (words : List UInt64) (a : α) : Prop :=
  ∀ s : Source, s.Shows words → x s = .ok (a, s.advance words.length)

variable {words more : List UInt64} {a : α} {b : β}

theorem Answers.pure (a : α) : Answers (Pure.pure a) [] a := fun _ _ => rfl

theorem Answers.bind (hx : x.Answers words a) (hf : (f a).Answers more b) :
    (x >>= f).Answers (words ++ more) b := fun s hs => by
  obtain ⟨hs, hmore⟩ := hs.of_append
  rw [bind_apply, hx s hs]
  change f a _ = _
  rw [hf _ hmore]
  simp [Source.advance, Nat.add_assoc]

/-- The last step reads nothing. -/
theorem Answers.then_pure {g : α → β} (hx : x.Answers words a) :
    (x >>= fun a => Pure.pure (g a)).Answers words (g a) := by
  have h := Answers.bind (f := fun a => Pure.pure (g a)) hx (Answers.pure (g a))
  rwa [List.append_nil] at h

theorem answers_word (w : UInt64) : word.Answers [w] w := fun s hs => by
  have hlt : s.drawn < s.limit := hs.within
  have hw : s.word s.drawn = w := hs.next 0 Nat.one_pos
  rw [word, if_pos hlt, hw]
  rfl

/-- Some words bring the computation to an answer. -/
def CanAnswer (x : Draw α) : Prop := ∃ words a, x.Answers words a

theorem CanAnswer.pure (a : α) : CanAnswer (Pure.pure a) := ⟨[], a, .pure a⟩

theorem Answers.canAnswer (hx : x.Answers words a) (hf : (f a).CanAnswer) :
    (x >>= f).CanAnswer := by
  obtain ⟨more, b, hf⟩ := hf
  exact ⟨words ++ more, b, hx.bind hf⟩

theorem CanAnswer.bind (hx : x.CanAnswer) (hf : ∀ a, (f a).CanAnswer) : (x >>= f).CanAnswer := by
  obtain ⟨words, a, hx⟩ := hx
  exact hx.canAnswer (hf a)

/-- The answer has whatever all answers have. -/
theorem CanAnswer.bind_of_ensures (hx : x.CanAnswer) (hP : x.Ensures P)
    (hf : ∀ a, P a → (f a).CanAnswer) : (x >>= f).CanAnswer := by
  obtain ⟨words, a, hx⟩ := hx
  exact hx.canAnswer (hf a (hP _ a _ (hx _ (Source.shows_ofWords words))))

theorem CanAnswer.mapM {g : β → Draw α} (h : ∀ b, (g b).CanAnswer) (l : List β) :
    (l.mapM g).CanAnswer := by
  induction l with
  | nil => exact .pure []
  | cons b l ih =>
    rw [List.mapM_cons]
    exact (h b).bind fun _ => ih.bind fun _ => .pure _

theorem CanAnswer.exists_ne_starved (hx : x.CanAnswer) : ∃ s, x s ≠ .error .starved := by
  obtain ⟨words, a, hx⟩ := hx
  refine ⟨.ofWords words, ?_⟩
  rw [hx _ (Source.shows_ofWords words)]
  nofun

theorem Answers.of_remaining {g : ℕ → Draw α} (h : ∀ n, (g n).Answers words a) :
    (remaining >>= g).Answers words a := fun s hs => h s.remaining s hs

/-- An attempt that succeeds at once. -/
theorem Answers.untilSome {attempt : Draw (Option α)} (h : attempt.Answers words (some a)) :
    (untilSome attempt).Answers words a :=
  .of_remaining fun n s hs => by
    rw [retry, bind_apply, h s hs]
    rfl

/-- On every stream that shows the words next, the computation stops for the reason `h`. -/
def Halts (x : Draw α) (words : List UInt64) (h : Halt) : Prop :=
  ∀ s : Source, s.Shows words → x s = .error h

theorem Halts.bind {h : Halt} (hx : x.Halts words h) : (x >>= f).Halts words h := fun s hs => by
  rw [bind_apply, hx s hs]
  rfl

theorem Answers.halts {h : Halt} (hx : x.Answers words a) (hf : (f a).Halts more h) :
    (x >>= f).Halts (words ++ more) h := fun s hs => by
  obtain ⟨hs, hmore⟩ := hs.of_append
  rw [bind_apply, hx s hs]
  exact hf _ hmore

end answers

section yields

/-- The computation fails only for want of words, and its answers have the property. -/
def Yields (x : Draw α) (P : α → Prop) : Prop :=
  ∀ s, (∃ a s', x s = .ok (a, s') ∧ P a) ∨ x s = .error .starved

theorem Yields.pure {a : α} (h : P a) : Yields (Pure.pure a) P := fun s => .inl ⟨a, s, rfl, h⟩

theorem Yields.mono {P' : α → Prop} (h : x.Yields P) (hP : ∀ a, P a → P' a) : x.Yields P' :=
  fun s => (h s).imp_left fun ⟨a, s', hs, ha⟩ => ⟨a, s', hs, hP a ha⟩

theorem Yields.bind (hx : x.Yields P) (hf : ∀ a, P a → (f a).Yields Q) :
    (x >>= f).Yields Q := fun s => by
  rw [bind_apply]
  rcases hx s with ⟨a, s', hs, ha⟩ | hs
  · rw [hs]
    exact hf a ha s'
  · rw [hs]
    exact .inr rfl

theorem Yields.meets {E : Halt → Prop} (h : x.Yields P) (hE : E .starved) : x.Meets E P := by
  intro s
  obtain ⟨a, s', hs, ha⟩ | hs := h s
  · rw [hs]
    exact ha
  · rw [hs]
    exact hE

theorem Yields.ensures (h : x.Yields P) : x.Ensures P :=
  (h.meets (E := fun _ => True) trivial).ensures

/-- What yields no answer starves on every source. -/
theorem Yields.starves (h : x.Yields fun _ => False) (s : Source) : x s = .error .starved := by
  rcases h s with ⟨_, _, _, h⟩ | hs
  · exact h.elim
  · exact hs

theorem yields_starved : (halt .starved : Draw α).Yields P := fun _ => .inr rfl

theorem yields_word : word.Yields fun _ => True := fun s => by
  rw [word]
  split
  · exact .inl ⟨_, _, rfl, trivial⟩
  · exact .inr rfl

theorem yields_remaining : remaining.Yields fun _ => True := fun _ => .inl ⟨_, _, rfl, trivial⟩

theorem Yields.retry {attempt : Draw (Option α)} (h : attempt.Yields fun o => ∀ a ∈ o, P a)
    (tries : ℕ) : (retry attempt tries).Yields P := by
  induction tries with
  | zero => exact yields_starved
  | succ tries ih =>
    refine h.bind fun o ho => ?_
    cases o with
    | none => exact ih
    | some a => exact .pure (ho a rfl)

theorem Yields.untilSome {attempt : Draw (Option α)} (h : attempt.Yields fun o => ∀ a ∈ o, P a) :
    (untilSome attempt).Yields P := yields_remaining.bind fun _ _ => h.retry _

end yields

theorem Meets.untilSome {E : Halt → Prop} (hE : E .starved) {attempt : Draw (Option α)}
    (h : attempt.Meets E fun o => ∀ a ∈ o, P a) : (untilSome attempt).Meets E P := by
  have hretry : ∀ tries, (retry attempt tries).Meets E P := by
    intro tries
    induction tries with
    | zero => exact yields_starved.meets hE
    | succ tries ih =>
      refine h.bind fun o ho => ?_
      cases o with
      | none => exact ih
      | some a => exact .pure (ho a rfl)
  exact (yields_remaining.meets hE).bind fun _ _ => hretry _

theorem yields_unit : unit.Yields fun x => ∃ w, x = fraction w :=
  yields_word.bind fun w _ => .pure ⟨w, rfl⟩

theorem yields_fairCoin : fairCoin.Yields fun _ => True := yields_word.bind fun _ _ => .pure trivial

/-- A coin of any probability, even of none. -/
theorem yields_toss (p : Float) : (coin p).Yields fun _ => True :=
  yields_unit.bind fun _ _ => .pure trivial

section coin

variable {p : Float} (hp : isProbability p = true)
include hp

/-- A coin shows true only with a positive probability, and false only with one below one. -/
theorem yields_coin : (coin p).Yields fun b => if b then 0.0 < p else p < 1.0 := by
  have hfinite := isFinite_of_isProbability hp
  refine yields_unit.bind ?_
  rintro _ ⟨w, rfl⟩
  apply Yields.pure
  by_cases h : fraction w < p
  · rw [if_pos (decide_eq_true h)]
    exact Number.lt_of_le_of_lt Number.isFinite_zero (Number.isFinite_fraction w) hfinite
      (Number.zero_le_fraction w) h
  · rw [if_neg (by simpa using h)]
    exact Number.lt_of_le_of_lt hfinite (Number.isFinite_fraction w) (by decide)
      ((Number.not_lt_iff (Number.isFinite_fraction w) hfinite).1 h) (Number.fraction_lt_one w)

omit hp in
private theorem answers_coin (p : Float) (w : UInt64) :
    (coin p).Answers [w] (fraction w < p) :=
  (answers_word w).then_pure.then_pure

omit hp in
/-- The smallest fraction shows true. -/
theorem answers_coin_true (h : 0.0 < p) : (coin p).Answers [0] true := by
  have hcoin := answers_coin p 0
  rwa [decide_eq_true (show fraction 0 < p from h)] at hcoin

/-- The largest fraction shows false. -/
theorem answers_coin_false (h : p < 1.0) : (coin p).Answers [0xffffffffffffffff] false := by
  have hfinite := isFinite_of_isProbability hp
  have hlast : ¬ fraction 0xffffffffffffffff < p :=
    (Number.not_lt_iff (Number.isFinite_fraction _) hfinite).2
      (Number.le_fraction_of_lt_one (Number.isNaN_eq_false hfinite) h)
  have hcoin := answers_coin p 0xffffffffffffffff
  rwa [decide_eq_false hlast] at hcoin

omit hp in
theorem canAnswer_coin (p : Float) : (coin p).CanAnswer := ⟨_, _, answers_coin p 0⟩

end coin

section below

variable {w : Width} {range : ℕ}

private theorem yields_wordOf : (wordOf w).Yields fun v => v < w.size := by
  refine yields_word.bind fun x _ => Yields.pure ?_
  have hx := x.toNat_lt
  cases w with
  | word32 =>
    rw [Nat.shiftRight_eq_div_pow]
    change x.toNat / 2 ^ 32 < 2 ^ 32
    omega
  | word64 => exact hx

private theorem answers_wordOf {v : ℕ} (hv : v < w.size) : ∃ x, (wordOf w).Answers [x] v := by
  cases w with
  | word32 =>
    change v < 2 ^ 32 at hv
    refine ⟨.ofNat (v * 2 ^ 32), ?_⟩
    have hx : (UInt64.ofNat (v * 2 ^ 32)).toNat >>> 32 = v := by
      rw [UInt64.toNat_ofNat_of_lt' (by change _ < 2 ^ 64; omega), Nat.shiftRight_eq_div_pow]
      omega
    have h := (answers_word (.ofNat (v * 2 ^ 32))).then_pure (g := fun x => x.toNat >>> 32)
    rwa [hx] at h
  | word64 =>
    refine ⟨.ofNat v, ?_⟩
    have hx : (UInt64.ofNat v).toNat >>> 0 = v := UInt64.toNat_ofNat_of_lt' hv
    have h := (answers_word (.ofNat v)).then_pure (g := fun x => x.toNat >>> 0)
    rwa [hx] at h

theorem yields_below (h : range ≠ 0) : (below w range).Yields fun i => i < range := by
  rw [below, if_neg h]
  refine (yields_wordOf.bind fun v hv => Yields.pure fun i hi => ?_).untilSome
  rw [accept?] at hi
  split at hi
  · cases hi
    exact Nat.div_lt_of_lt_mul (Nat.mul_lt_mul_of_pos_right hv (by omega))
  · cases hi

theorem signedWord_of_lt {n : ℕ} (h : n < 2 ^ 63) : signedWord n = n := by
  unfold signedWord UInt64.size
  exact Int.bmod_eq_of_le (by omega) (by omega)

section empty

variable {E : Halt → Prop} (hE : E .starved)
include hE

theorem meets_below (hrange : range = 0 → E .emptyRange) :
    (below w range).Meets E fun i => i < range := by
  by_cases h : range = 0
  · rw [below, if_pos h]
    exact fun _ => hrange h
  · exact (yields_below h).meets hE

theorem meets_between {low high : ℤ} (hrange : high < low → E .emptyRange) :
    (between low high).Meets E fun _ => True := by
  rw [between]
  split
  · exact fun _ => hrange ‹_›
  · have hwidth : (high - low + 1).toNat ≠ 0 := by omega
    exact ((yields_below hwidth).meets hE).bind fun _ _ => .pure trivial

omit hE in
/-- A place below a length; none is drawn below zero. -/
theorem ensures_below (w : Width) (range : ℕ) : (below w range).Ensures fun i => i < range :=
  (meets_below (E := fun _ => True) trivial fun _ => trivial).ensures

/-- Shifts are drawn from an empty range only for a step that is negative as a signed word. -/
theorem meets_nonzeroShift {axes step : ℕ} (hstep : ¬ step < 2 ^ 63 → E .emptyRange) :
    (nonzeroShift axes step).Meets E fun _ => True := by
  have hempty : signedWord (max step 1) < -signedWord (max step 1) → E .emptyRange := by
    intro hlt
    refine hstep fun hfits => ?_
    rw [signedWord_of_lt (by omega)] at hlt
    omega
  rw [nonzeroShift]
  generalize signedWord (max step 1) = reach at hempty ⊢
  refine Meets.untilSome hE ?_
  exact (Meets.mapM (fun _ => meets_between hE hempty) _).bind fun _ _ => .pure fun _ _ => trivial

end empty

theorem answers_below {i : ℕ} {x : UInt64} {v : ℕ} (h : range ≠ 0)
    (hx : (wordOf w).Answers [x] v) (hv : accept? w range v = some i) :
    (below w range).Answers [x] i := by
  rw [below, if_neg h]
  apply Answers.untilSome
  have h := hx.then_pure (g := accept? w range)
  rwa [hv] at h

private theorem pred_le_acceptance (w : Width) (range : ℕ) : range - 1 ≤ acceptance w range := by
  have h : range ≤ range <<< (w.bits - (range.log2 + 1)) := by
    rw [Nat.shiftLeft_eq]
    exact Nat.le_mul_of_pos_right _ (Nat.two_pow_pos _)
  exact Nat.sub_le_sub_right h 1

/-- The least word whose product with the range reaches a value is accepted for it. -/
private theorem exists_accept {i : ℕ} (hi : i < range) (hrange : range ≤ w.size) :
    ∃ v < w.size, accept? w range v = some i := by
  have hceil := Nat.div_add_mod (i * w.size + (range - 1)) range
  have hrest := Nat.mod_lt (i * w.size + (range - 1)) (show 0 < range by omega)
  generalize (i * w.size + (range - 1)) / range = v at hceil
  obtain ⟨r, hr, hle⟩ : ∃ r, v * range = w.size * i + r ∧ r ≤ range - 1 := by
    rw [Nat.mul_comm v, Nat.mul_comm w.size]
    exact ⟨range * v - i * w.size, by omega, by omega⟩
  refine ⟨v, ?_, ?_⟩
  · by_contra hv
    have hlow : w.size * range ≤ v * range := Nat.mul_le_mul_right _ (by omega)
    have hhigh : w.size * (i + 1) ≤ w.size * range := Nat.mul_le_mul_left _ hi
    rw [Nat.mul_succ] at hhigh
    omega
  · have hmod : v * range % w.size = r := by
      rw [hr, Nat.mul_add_mod, Nat.mod_eq_of_lt (by omega)]
    have hdiv : v * range / w.size = i := by
      rw [hr, Nat.mul_add_div (by omega), Nat.div_eq_of_lt (by omega), Nat.add_zero]
    rw [accept?, hmod, hdiv, if_pos (hle.trans (pred_le_acceptance w range))]

theorem exists_answers_below {i : ℕ} (hi : i < range) (hrange : range ≤ w.size) :
    ∃ x, (below w range).Answers [x] i := by
  obtain ⟨v, hv, haccept⟩ := exists_accept hi hrange
  obtain ⟨x, hx⟩ := answers_wordOf hv
  exact ⟨x, answers_below (by omega) hx haccept⟩

theorem answers_below_zero (h : range ≠ 0) : (below w range).Answers [0] 0 := by
  refine answers_below (v := 0) h ?_ ?_
  · cases w <;> exact (answers_word 0).then_pure
  · simp [accept?]

theorem canAnswer_below (h : range ≠ 0) : (below w range).CanAnswer := ⟨_, _, answers_below_zero h⟩

/-- The smallest word gives the lowest value. -/
theorem answers_between_low {low high : ℤ} (h : low ≤ high) : (between low high).Answers [0] low := by
  have hwidth : (high - low + 1).toNat ≠ 0 := by omega
  rw [between, if_neg (Int.not_lt.2 h)]
  have hlow := (answers_below_zero (w := .word64) hwidth).then_pure (g := fun i : ℕ => low + (i : ℤ))
  rwa [Nat.cast_zero, Int.add_zero] at hlow

/-- Words that give every coordinate the lowest shift give a shift that is not all zero. -/
theorem canAnswer_nonzeroShift (axes : ℕ) {step : ℕ} (hstep : step < 2 ^ 63) :
    (nonzeroShift axes step).CanAnswer := by
  have hreach : 0 < signedWord (max step 1) := by
    rw [signedWord_of_lt (by omega)]
    omega
  rw [nonzeroShift]
  generalize signedWord (max step 1) = reach at hreach ⊢
  have hlow := answers_between_low (show -reach ≤ reach by omega)
  have hall : ∀ n : ℕ, ((List.replicate n ()).mapM fun _ => between (-reach) reach).Answers
      (List.replicate n 0) (List.replicate n (-reach)) := by
    intro n
    induction n with
    | zero => exact .pure []
    | succ n ih =>
      rw [List.replicate_succ, List.mapM_cons]
      exact hlow.bind ih.then_pure
  have hshift : (axes = 0 || (List.replicate axes (-reach)).any (· != 0)) = true := by
    cases axes with
    | zero => rfl
    | succ n => simp [List.replicate_succ, hreach.ne']
  have h := (hall axes).then_pure (g := fun shift : List ℤ =>
    if axes = 0 || shift.any (· != 0) then some shift else none)
  rw [if_pos hshift] at h
  exact ⟨_, _, Answers.untilSome h⟩

end below

section choose

variable {l : List α}

theorem choose_of_ne_nil (hl : l ≠ []) :
    choose l = below (.ofLength l.length) l.length >>= fun i => pure l[i]? :=
  if_neg (by simpa using hl)

theorem yields_choose (hl : l ≠ []) : (choose l).Yields fun o => ∃ a ∈ l, o = some a := by
  rw [choose_of_ne_nil hl]
  refine (yields_below (mt List.length_eq_zero_iff.1 hl)).bind fun i hi => Yields.pure ?_
  exact ⟨l[i], List.getElem_mem hi, List.getElem?_eq_getElem hi⟩

/-- The same for a list that may be empty. -/
theorem yields_chosen (l : List α) : (choose l).Yields fun o => ∀ a ∈ o, a ∈ l := by
  by_cases hl : l = []
  · subst hl
    exact .pure (by simp)
  · refine (yields_choose hl).mono ?_
    rintro _ ⟨a, ha, rfl⟩
    simpa using ha

/-- Every member of a list that fits into memory is drawn from some word. -/
theorem exists_answers_choose_mem {a : α} (ha : a ∈ l) (hl : l.length < UInt64.size) :
    ∃ x, (choose l).Answers [x] (some a) := by
  obtain ⟨i, hi, rfl⟩ := List.getElem_of_mem ha
  have hwidth : l.length ≤ (Width.ofLength l.length).size := by
    rw [Width.ofLength]
    split
    · exact Nat.le_of_lt ‹_›
    · exact Nat.le_of_lt hl
  obtain ⟨x, hx⟩ := exists_answers_below hi hwidth
  refine ⟨x, ?_⟩
  rw [choose_of_ne_nil (List.ne_nil_of_mem ha), ← List.getElem?_eq_getElem hi]
  exact hx.then_pure

theorem canAnswer_choose (l : List α) : (choose l).CanAnswer := by
  by_cases hl : l = []
  · subst hl
    exact ⟨[], none, .pure none⟩
  · rw [choose_of_ne_nil hl]
    exact ⟨[0], _, (answers_below_zero (mt List.length_eq_zero_iff.1 hl)).then_pure⟩

end choose

private theorem yields_tailAttempt : Normal.tailAttempt.Yields fun _ => True :=
  yields_word.bind fun _ _ => yields_word.bind fun _ _ => .pure trivial

private theorem yields_attempt : Normal.attempt.Yields fun _ => True := by
  refine yields_word.bind fun w _ => ?_
  dsimp only
  split
  · exact .pure trivial
  · split
    · exact (yields_tailAttempt.mono fun _ _ _ _ => trivial).untilSome.bind fun _ _ => .pure trivial
    · exact yields_unit.bind fun _ _ => .pure trivial

theorem yields_deviate (d : Float) : (Normal.deviate d).Yields fun _ => True :=
  (yields_attempt.mono fun _ _ _ _ => trivial).untilSome.bind fun _ _ => .pure trivial

/-- A point that lies under the density at once. -/
private theorem answers_attempt {w : UInt64}
    (h : (Normal.symmetric w * Normal.edge (Normal.layer w).castSucc).abs <
      Normal.edge (Normal.layer w).succ) :
    Normal.attempt.Answers [w]
      (some (Normal.symmetric w * Normal.edge (Normal.layer w).castSucc)) := fun s hs => by
  rw [Normal.attempt, bind_apply, answers_word _ s hs]
  simp only [Except.bind, if_pos h]
  rfl

theorem answers_deviate (d : Float) {w : UInt64}
    (h : (Normal.symmetric w * Normal.edge (Normal.layer w).castSucc).abs <
      Normal.edge (Normal.layer w).succ) :
    (Normal.deviate d).Answers [w]
      (0.0 + d * (Normal.symmetric w * Normal.edge (Normal.layer w).castSucc)) :=
  (answers_attempt h).untilSome.then_pure

theorem canAnswer_deviate (d : Float) : (Normal.deviate d).CanAnswer := by
  -- The middle of the widest layer.
  have hmiddle : (Normal.symmetric 0x8000000000000000 *
      Normal.edge (Normal.layer 0x8000000000000000).castSucc).abs <
      Normal.edge (Normal.layer 0x8000000000000000).succ := by decide +kernel
  exact ⟨_, _, answers_deviate d hmiddle⟩

end Draw

end TangledPrograms
