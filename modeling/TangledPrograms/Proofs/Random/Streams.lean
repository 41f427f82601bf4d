import TangledPrograms.Proofs.Random.Chance

/-!
# Reading on in a stream

A computation reads on from where it stands: what it leaves is the source that it was given, advanced
by the words that it has read. So what all answers have that a computation gives anywhere from some
source on, such as the normal deviates of one stream, holds wherever a longer computation from that
source makes use of it.
-/

namespace TangledPrograms

/-- By reading on, one comes from a source to another. -/
def Source.Reaches (s s' : Source) : Prop := ∃ n, s' = s.advance n

theorem Source.Reaches.refl (s : Source) : s.Reaches s := ⟨0, rfl⟩

theorem Source.Reaches.trans {s s₁ s₂ : Source} (h : s.Reaches s₁) (h' : s₁.Reaches s₂) :
    s.Reaches s₂ := by
  obtain ⟨n, rfl⟩ := h
  obtain ⟨m, rfl⟩ := h'
  exact ⟨n + m, by simp [advance, Nat.add_assoc]⟩

namespace Draw

variable {α β : Type} {x : Draw α} {f : α → Draw β} {P : α → Prop} {Q : β → Prop} {s : Source}

/-- The source that is left is the one that was given, advanced. -/
def Advances (x : Draw α) : Prop := ∀ s a s', x s = .ok (a, s') → s.Reaches s'

namespace Advances

theorem pure (a : α) : Advances (Pure.pure a) := fun s b s' h => by
  cases h
  exact .refl s

theorem bind (hx : x.Advances) (hf : ∀ a, (f a).Advances) : (x >>= f).Advances := fun s b s' h => by
  obtain ⟨a, s₁, hxs, hfs⟩ := exists_of_bind h
  exact (hx s a s₁ hxs).trans (hf a s₁ b s' hfs)

theorem mapM (h : ∀ a, (f a).Advances) (l : List α) : (l.mapM f).Advances := by
  induction l with
  | nil => exact .pure []
  | cons a l ih =>
    rw [List.mapM_cons]
    exact (h a).bind fun _ => ih.bind fun _ => .pure _

theorem halt (h : Halt) : (Draw.halt h : Draw α).Advances := fun _ _ _ h => by cases h

theorem ofExcept (o : Except Halt α) : (Draw.ofExcept o).Advances := fun s a s' h => by
  cases o with
  | error e => cases h
  | ok b =>
    cases h
    exact .refl s

theorem retry {attempt : Draw (Option α)} (h : attempt.Advances) (tries : ℕ) :
    (Draw.retry attempt tries).Advances := by
  induction tries with
  | zero => exact .halt _
  | succ tries ih =>
    refine h.bind fun o => ?_
    cases o with
    | none => exact ih
    | some a => exact .pure a

theorem remaining : Draw.remaining.Advances := fun s a s' h => by
  cases h
  exact .refl s

theorem untilSome {attempt : Draw (Option α)} (h : attempt.Advances) :
    (Draw.untilSome attempt).Advances := remaining.bind fun _ => h.retry _

theorem word : Draw.word.Advances := fun s a s' h => by
  rw [Draw.word] at h
  split at h
  · cases h
    exact ⟨1, rfl⟩
  · cases h

theorem unit : Draw.unit.Advances := word.bind fun _ => .pure _

theorem coin (p : Float) : (Draw.coin p).Advances := unit.bind fun _ => .pure _

theorem below (w : Width) (range : ℕ) : (Draw.below w range).Advances := by
  rw [Draw.below]
  split
  · exact .halt _
  · exact .untilSome ((word.bind fun _ => .pure _).bind fun _ => .pure _)

theorem between (low high : ℤ) : (Draw.between low high).Advances := by
  rw [Draw.between]
  split
  · exact .halt _
  · exact (below _ _).bind fun _ => .pure _

theorem choose (l : List α) : (Draw.choose l).Advances := by
  rw [Draw.choose]
  split
  · exact .pure none
  · exact (below _ _).bind fun _ => .pure _

theorem resampleDifferent (range current : UInt32) :
    (Draw.resampleDifferent range current).Advances := by
  simp only [Draw.resampleDifferent]
  split
  · exact .pure none
  · split
    · exact .pure _
    · split
      · exact (below _ _).bind fun _ => .pure _
      · exact (below _ _).bind fun _ => .pure _

theorem nonzeroShift (axes step : ℕ) : (Draw.nonzeroShift axes step).Advances :=
  .untilSome ((Advances.mapM (fun _ => between _ _) _).bind fun _ => .pure _)

theorem deviate (d : Float) : (Normal.deviate d).Advances := by
  have htail : Normal.tailAttempt.Advances := word.bind fun _ => word.bind fun _ => .pure _
  have hattempt : Normal.attempt.Advances := by
    refine word.bind fun w => ?_
    dsimp only
    split
    · exact .pure _
    · split
      · exact htail.untilSome.bind fun _ => .pure _
      · exact unit.bind fun _ => .pure _
  exact hattempt.untilSome.bind fun _ => .pure _

end Advances

/-- Wherever it is begun from the source on, the answers have the property. -/
def EnsuresFrom (x : Draw α) (s : Source) (P : α → Prop) : Prop :=
  ∀ s₁ a s', s.Reaches s₁ → x s₁ = .ok (a, s') → P a ∧ s.Reaches s'

namespace EnsuresFrom

theorem pure {a : α} (h : P a) : EnsuresFrom (Pure.pure a) s P := fun s₁ b s' hs hb => by
  cases hb
  exact ⟨h, hs⟩

theorem mono {P' : α → Prop} (h : x.EnsuresFrom s P) (hP : ∀ a, P a → P' a) : x.EnsuresFrom s P' :=
  fun s₁ a s' hs ha => (h s₁ a s' hs ha).imp_left (hP a)

theorem bind (hx : x.EnsuresFrom s P) (hf : ∀ a, P a → (f a).EnsuresFrom s Q) :
    (x >>= f).EnsuresFrom s Q := fun s₁ b s' hs hb => by
  obtain ⟨a, s₂, hxs, hfs⟩ := exists_of_bind hb
  obtain ⟨ha, hs₂⟩ := hx s₁ a s₂ hs hxs
  exact hf a ha s₂ b s' hs₂ hfs

/-- At the source itself. -/
theorem here (h : x.EnsuresFrom s P) {a : α} {s' : Source} (ha : x s = .ok (a, s')) : P a :=
  (h s a s' (.refl s) ha).1

end EnsuresFrom

/-- What holds of all answers holds of those from any source on. -/
theorem Advances.ensuresFrom (hx : x.Advances) (h : x.Ensures P) (s : Source) :
    x.EnsuresFrom s P := fun s₁ a s' hs ha => ⟨h s₁ a s' ha, hs.trans (hx s₁ a s' ha)⟩

/-- For a computation of which nothing is known but that it reads on. -/
theorem Advances.thenFrom (hx : x.Advances) (hf : ∀ a, (f a).EnsuresFrom s Q) :
    (x >>= f).EnsuresFrom s Q :=
  (hx.ensuresFrom ensures_true s).bind fun a _ => hf a

/-- The answers are just those that it gives there. -/
theorem Advances.ensuresFrom_self (hx : x.Advances) (s : Source) :
    x.EnsuresFrom s fun a => ∃ s₁ s', s.Reaches s₁ ∧ x s₁ = .ok (a, s') :=
  fun s₁ a s' hs ha => ⟨⟨s₁, s', hs, ha⟩, hs.trans (hx s₁ a s' ha)⟩

/-- On a stream of one word that names a point under the density, all deviates are the same. -/
theorem deviate_of_constant {d y : Float} {w : UInt64} {s' : Source}
    (hw : (Normal.symmetric w * Normal.edge (Normal.layer w).castSucc).abs <
      Normal.edge (Normal.layer w).succ) (hs : ∀ i, s.word i = w)
    (h : Normal.deviate d s = .ok (y, s')) :
    y = 0.0 + d * (Normal.symmetric w * Normal.edge (Normal.layer w).castSucc) := by
  by_cases hlimit : s.drawn < s.limit
  · have hshows : s.Shows [w] := ⟨hlimit, fun i hi => by simp [hs]⟩
    rw [answers_deviate d hw s hshows] at h
    cases h
    rfl
  · have hstarved : Normal.deviate d s = .error .starved := by
      simp [Normal.deviate, untilSome, remaining, retry, Normal.attempt, word, bind_apply,
        Except.bind, hlimit]
    cases hstarved.symm.trans h

end Draw

end TangledPrograms
