import TangledPrograms.Proofs.Random.Chance

/-!
# What a random computation can answer

`x.Spans P` says that the answers of `x` are exactly those with the property: whatever `x` answers has
it, and whatever has it is answered on every stream on which some words come next. `x.May P` says of
one answer with the property that it is. The rules for `pure` and `bind` carry this from coins, uniform
values and choices to what is made of them.
-/

namespace TangledPrograms

namespace Draw

variable {α β : Type} {x : Draw α} {f : α → Draw β} {P : α → Prop} {Q : α → β → Prop}

/-- Every answer has the property, and some words bring about each answer that has it. -/
structure Spans (x : Draw α) (P : α → Prop) : Prop where
  sound : x.Ensures P
  complete : ∀ a, P a → ∃ words, x.Answers words a

theorem Spans.pure (a : α) : Spans (Pure.pure a) (· = a) := by
  constructor
  · exact .pure rfl
  · rintro _ rfl
    exact ⟨[], .pure _⟩

theorem Spans.bind (hx : x.Spans P) (hf : ∀ a, P a → (f a).Spans (Q a)) :
    (x >>= f).Spans fun b => ∃ a, P a ∧ Q a b := by
  constructor
  · exact hx.sound.bind fun a ha => (hf a ha).sound.mono fun b hb => ⟨a, ha, hb⟩
  · rintro b ⟨a, ha, hb⟩
    obtain ⟨words, hwords⟩ := hx.complete a ha
    obtain ⟨more, hmore⟩ := (hf a ha).complete b hb
    exact ⟨words ++ more, hwords.bind hmore⟩

/-- The last step reads nothing. -/
theorem Spans.then_pure (hx : x.Spans P) (g : α → β) :
    (x >>= fun a => Pure.pure (g a)).Spans fun b => ∃ a, P a ∧ b = g a :=
  hx.bind fun a _ => .pure (g a)

theorem Spans.congr {P' : α → Prop} (h : x.Spans P) (hP : ∀ a, P a ↔ P' a) : x.Spans P' := by
  obtain rfl : P = P' := funext fun a => propext (hP a)
  exact h

/-- On some stream the answer is `a` exactly if it has the property. -/
theorem Spans.exists_iff (h : x.Spans P) (a : α) : (∃ s s', x s = .ok (a, s')) ↔ P a := by
  constructor
  · rintro ⟨s, s', hs⟩
    exact h.sound s a s' hs
  · intro ha
    obtain ⟨words, hwords⟩ := h.complete a ha
    exact ⟨_, _, hwords _ (Source.shows_ofWords words)⟩

/-- Some words bring about an answer with the property. -/
def May (x : Draw α) (P : α → Prop) : Prop := ∃ words a, x.Answers words a ∧ P a

namespace May

variable {R : β → Prop}

theorem pure {a : α} (h : P a) : May (Pure.pure a) P := ⟨[], a, .pure a, h⟩

theorem bind (hx : x.May P) (hf : ∀ a, P a → (f a).May R) : (x >>= f).May R := by
  obtain ⟨words, a, hx, ha⟩ := hx
  obtain ⟨more, b, hf, hb⟩ := hf a ha
  exact ⟨words ++ more, b, hx.bind hf, hb⟩

theorem mono {P' : α → Prop} (h : x.May P) (hP : ∀ a, P a → P' a) : x.May P' := by
  obtain ⟨words, a, hx, ha⟩ := h
  exact ⟨words, a, hx, hP a ha⟩

/-- The answer has whatever all answers have. -/
theorem and_ensures {P' : α → Prop} (h : x.May P) (h' : x.Ensures P') :
    x.May fun a => P a ∧ P' a := by
  obtain ⟨words, a, hx, ha⟩ := h
  exact ⟨words, a, hx, ha, h' _ a _ (hx _ (Source.shows_ofWords words))⟩

theorem exists_ok (h : x.May P) : ∃ s a s', x s = .ok (a, s') ∧ P a := by
  obtain ⟨words, a, hx, ha⟩ := h
  exact ⟨_, a, _, hx _ (Source.shows_ofWords words), ha⟩

end May

theorem CanAnswer.may (h : x.CanAnswer) (hP : x.Ensures P) : x.May P := by
  obtain ⟨words, a, hx⟩ := h
  exact ⟨words, a, hx, hP _ a _ (hx _ (Source.shows_ofWords words))⟩

theorem Spans.may {P' : α → Prop} {a : α} (h : x.Spans P) (ha : P a) (ha' : P' a) : x.May P' := by
  obtain ⟨words, hx⟩ := h.complete a ha
  exact ⟨words, a, hx, ha'⟩

/-- The coin of this probability can show this side. -/
def CanShow (p : Float) (side : Bool) : Prop := ∃ w, decide (fraction w < p) = side

/-- With a positive probability a coin can show true. -/
theorem canShow_true_iff {p : Float} (hp : isProbability p = true) : CanShow p true ↔ 0.0 < p := by
  constructor
  · rintro ⟨w, hw⟩
    exact Number.lt_of_le_of_lt Number.isFinite_zero (Number.isFinite_fraction w)
      (isFinite_of_isProbability hp) (Number.zero_le_fraction w) (of_decide_eq_true hw)
  · intro h
    exact ⟨0, decide_eq_true (show fraction 0 < p from h)⟩

theorem spans_coin (p : Float) : (coin p).Spans (CanShow p) := by
  constructor
  · refine yields_unit.ensures.bind ?_
    rintro _ ⟨w, rfl⟩
    exact .pure ⟨w, rfl⟩
  · rintro _ ⟨w, rfl⟩
    exact ⟨[w], (answers_word w).then_pure.then_pure⟩

theorem spans_below {w : Width} {range : ℕ} (hrange : range ≠ 0) (hsize : range ≤ w.size) :
    (below w range).Spans (· < range) := by
  refine ⟨(yields_below hrange).ensures, fun i hi => ?_⟩
  obtain ⟨x, hx⟩ := exists_answers_below hi hsize
  exact ⟨[x], hx⟩

end Draw

end TangledPrograms
