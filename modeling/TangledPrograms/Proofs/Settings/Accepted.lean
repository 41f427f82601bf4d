import TangledPrograms.Settings.Validation
import TangledPrograms.Proofs.Number.Order

/-!
# What accepted settings have

Settings are accepted if none of the checks refuses them. Then every rate is a probability, a number
from `0` to `1`.
-/

namespace TangledPrograms

open Float.Model (UnpackedFloat)

section probability

variable {p : Float} (hp : isProbability p = true)
include hp

theorem isFinite_of_isProbability : p.isFinite = true := by
  rw [isProbability, Bool.and_eq_true, decide_eq_true_iff, decide_eq_true_iff] at hp
  obtain ⟨hlow, hhigh⟩ := hp
  change decide (UnpackedFloat.le (.zero .positive) p.toModel.unpack = true) = true at hlow
  change decide (UnpackedFloat.le p.toModel.unpack (.finite .positive (2 ^ 52) (-52) (by decide)) =
    true) = true at hhigh
  change UnpackedFloat.isFinite p.toModel.unpack = true
  rcases hu : p.toModel.unpack with ⟨_ | _⟩ | _ | _ | _
  · rw [hu] at hlow
    exact absurd hlow (by decide)
  · rw [hu] at hhigh
    exact absurd hhigh (by decide)
  · rw [hu] at hlow
    exact absurd hlow (by decide)
  · rfl
  · rfl

/-- A probability that is not positive lies below one. -/
theorem pos_or_lt_one : 0.0 < p ∨ p < 1.0 := by
  have hfinite := isFinite_of_isProbability hp
  by_cases h : 0.0 < p
  · exact .inl h
  · have hle := (Number.not_lt_iff Number.isFinite_zero hfinite).1 h
    exact .inr (Number.lt_of_le_of_lt hfinite Number.isFinite_zero (by decide) hle (by decide))

/-- A probability is zero unless it is positive. -/
theorem beq_zero_iff : (p == 0.0) = true ↔ ¬ 0.0 < p := by
  have hfinite := isFinite_of_isProbability hp
  rw [isProbability, Bool.and_eq_true, decide_eq_true_iff] at hp
  have hlow : ¬ p < 0.0 := (Number.not_lt_iff hfinite Number.isFinite_zero).2 hp.1
  rw [Number.beq_iff_not_lt (Number.isNaN_eq_false hfinite) (by decide)]
  exact and_iff_right hlow

end probability

private theorem ok_of_refuseIf {bad : Bool} {e : SettingsError} {β : Type}
    {f : Unit → Except SettingsError β} {b : β} (h : (refuseIf bad e >>= f) = .ok b) :
    f () = .ok b := by
  rw [refuseIf] at h
  split at h
  · cases h
  · exact h

private theorem eq_false_of_refuseIf {bad : Bool} {e : SettingsError} {β : Type}
    {f : Unit → Except SettingsError β} {b : β} (h : (refuseIf bad e >>= f) = .ok b) :
    bad = false := by
  cases bad with
  | false => rfl
  | true => cases h

private theorem refuseIf_bind_eq_error_iff {first second : Bool} {e : SettingsError} :
    (refuseIf first e >>= fun _ => refuseIf second e) = .error e ↔
      first = true ∨ second = true := by
  cases first with
  | true => exact iff_of_true rfl (.inl rfl)
  | false =>
    cases second with
    | true => exact iff_of_true rfl (.inr rfl)
    | false => exact iff_of_false nofun (by decide)

theorem Settings.check_mutation {s : Settings} (h : s.check = .ok ()) : s.mutation.check = .ok () := by
  unfold Settings.check at h
  iterate 10 replace h := ok_of_refuseIf h
  exact h

theorem Settings.sharedGroups_ne_zero {s : Settings} (h : s.check = .ok ()) :
    s.registers.sharedGroups ≠ 0 := by
  unfold Settings.check at h
  iterate 4 replace h := ok_of_refuseIf h
  exact of_decide_eq_false (eq_false_of_refuseIf h)

theorem Settings.axis_pos {s : Settings} (h : s.check = .ok ()) :
    ∀ d ∈ s.addressing.sourceShape, 0 < d := by
  unfold Settings.check at h
  iterate 6 replace h := ok_of_refuseIf h
  have hzero := (Bool.or_eq_false_iff.1 (eq_false_of_refuseIf h)).2
  rw [List.contains_eq_mem, decide_eq_false_iff_not] at hzero
  exact fun d hd => Nat.pos_of_ne_zero fun h => hzero (h ▸ hd)

theorem Rate.mem_all (r : Rate) : r ∈ Rate.all := by
  cases r <;> decide

theorem MutationSettings.isProbability_rate {m : MutationSettings} (h : m.check = .ok ())
    (r : Rate) : isProbability (m.rate r).toFloat = true := by
  unfold MutationSettings.check at h
  cases hbad : m.badRate? with
  | some r =>
    rw [hbad] at h
    cases h
  | none => simpa using List.find?_eq_none.1 hbad r r.mem_all

theorem MutationSettings.maxChangeAttempts_ne_zero {m : MutationSettings} (h : m.check = .ok ()) :
    m.maxChangeAttempts ≠ 0 := by
  unfold MutationSettings.check at h
  cases hbad : m.badRate? with
  | some r =>
    rw [hbad] at h
    cases h
  | none =>
    rw [hbad] at h
    exact of_decide_eq_false (eq_false_of_refuseIf (ok_of_refuseIf h))

/-- The rates are probabilities, the noise is a size, and something is tried. -/
structure MutationSettings.InRange (m : MutationSettings) : Prop where
  rates : ∀ r, isProbability (m.rate r).toFloat = true
  noise : 0.0 ≤ m.vectorNoise.toFloat
  finite : m.vectorNoise.toFloat.isFinite = true
  attempts : m.maxChangeAttempts ≠ 0

/-- Such settings are only refused for rates at which no mutation is said to be possible. -/
theorem MutationSettings.InRange.refused_iff {m : MutationSettings} (h : m.InRange) :
    m.check = .error .noMutationPossible ↔
      ¬ 0.0 < m.program.toFloat ∧ ¬ 0.0 < m.action.toFloat ∨
        0.0 < m.program.toFloat ∧ m.instructionsFixed = true := by
  have hbad : m.badRate? = none := List.find?_eq_none.2 fun r _ => by simp [h.rates r]
  have hnoise : (!(decide (m.vectorNoise.toFloat ≥ 0.0) && m.vectorNoise.toFloat.isFinite)) = false := by
    rw [h.finite, decide_eq_true h.noise]
    rfl
  have hprogram : (m.program.toFloat == 0.0) = true ↔ ¬ 0.0 < m.program.toFloat :=
    beq_zero_iff (h.rates .program)
  have haction : (m.action.toFloat == 0.0) = true ↔ ¬ 0.0 < m.action.toFloat :=
    beq_zero_iff (h.rates .action)
  simp only [check, hbad, hnoise, h.attempts, decide_false]
  change (refuseIf _ _ >>= fun _ => refuseIf _ _) = _ ↔ _
  rw [refuseIf_bind_eq_error_iff, Bool.and_eq_true, Bool.and_eq_true, decide_eq_true_iff, hprogram,
    haction]

end TangledPrograms
