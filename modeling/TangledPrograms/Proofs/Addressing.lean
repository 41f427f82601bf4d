import TangledPrograms.Addressing.Basic
import TangledPrograms.Proofs.Random.Chance

/-!
# The positions of windows

Windows are made with the positions of their points, and moving them finds the positions anew. So a
strategy is determined by its parameters. Moving asks an empty range for shifts only if the step
is negative as a signed word.
-/

namespace TangledPrograms

open Draw

/-- The windows that are made with the same parameters are the same. -/
def WindowAddressing.Coherent (w : WindowAddressing) : Prop := make w.anchor w.shape w.kernel = .ok w

def MultiWindowAddressing.Coherent (w : MultiWindowAddressing) : Prop :=
  make w.anchors w.shape w.kernel w.step = .ok w

/-- The positions of a strategy's points are those of its parameters. -/
def Addressing.Coherent : Addressing → Prop
  | .full => True
  | .window w => w.Coherent
  | .multiWindow w => w.Coherent

private theorem ok_of_bind_pure {α β : Type} {x : Except Halt α} {f : α → β} {b : β} :
    (do pure (f (← x))) = .ok b ↔ ∃ a, x = .ok a ∧ f a = b := by
  cases x with
  | error e => exact ⟨nofun, nofun⟩
  | ok a =>
    refine ⟨fun h => ⟨a, rfl, Except.ok.inj h⟩, fun ⟨_, ha, hb⟩ => ?_⟩
    cases ha
    exact congrArg _ hb

namespace WindowAddressing

theorem make_eq_ok_iff {anchor shape : List Nat} {kernel : Nat} {w : WindowAddressing} :
    make anchor shape kernel = .ok w ↔ ∃ positions,
      Window.expand? (max kernel 1) anchor shape = .ok positions ∧
      ⟨anchor, shape, max kernel 1, positions⟩ = w := ok_of_bind_pure

theorem coherent_of_make {anchor shape : List Nat} {kernel : Nat} {w : WindowAddressing}
    (h : make anchor shape kernel = .ok w) : w.Coherent := by
  obtain ⟨positions, hpositions, rfl⟩ := make_eq_ok_iff.1 h
  refine make_eq_ok_iff.2 ⟨positions, ?_, ?_⟩ <;> simp [hpositions]

theorem coherent_random (shape : List Nat) (kernel : Nat) :
    (random shape kernel).Ensures Coherent :=
  .after fun _ => ensures_ofExcept fun _ h => coherent_of_make h

theorem coherent_perturb {w : WindowAddressing} (h : w.Coherent) :
    w.perturb.Ensures fun r => r.2.Coherent := by
  obtain ⟨_, _, hw⟩ := make_eq_ok_iff.1 h
  have hkernel : max w.kernel 1 = w.kernel := congrArg kernel hw
  simp only [perturb]
  split
  · exact .pure h
  · refine .after fun shift => ?_
    refine (ensures_ofExcept fun positions hpositions => ?_).bind fun positions hpositions =>
      .pure (make_eq_ok_iff.2 ⟨positions, hpositions, ?_⟩)
    · rwa [hkernel]
    · rw [hkernel]

end WindowAddressing

namespace MultiWindowAddressing

theorem make_eq_ok_iff {anchors : List (List Nat)} {shape : List Nat} {kernel step : Nat}
    {w : MultiWindowAddressing} : make anchors shape kernel step = .ok w ↔ ∃ positions,
      expandAll? (max kernel 1) anchors shape = .ok positions ∧
      ⟨anchors, shape, max kernel 1, max step 1, positions⟩ = w := ok_of_bind_pure

theorem coherent_of_make {anchors : List (List Nat)} {shape : List Nat} {kernel step : Nat}
    {w : MultiWindowAddressing} (h : make anchors shape kernel step = .ok w) : w.Coherent := by
  obtain ⟨positions, hpositions, rfl⟩ := make_eq_ok_iff.1 h
  refine make_eq_ok_iff.2 ⟨positions, ?_, ?_⟩ <;> simp [hpositions]

theorem coherent_random (shape : List Nat) (kernel points step : Nat) :
    (random shape kernel points step).Ensures Coherent :=
  .after fun _ => ensures_ofExcept fun _ h => coherent_of_make h

theorem coherent_perturb {w : MultiWindowAddressing} (h : w.Coherent) :
    w.perturb.Ensures fun r => r.2.Coherent := by
  obtain ⟨_, _, hw⟩ := make_eq_ok_iff.1 h
  have hkernel : max w.kernel 1 = w.kernel := congrArg kernel hw
  have hstep : max w.step 1 = w.step := congrArg step hw
  simp only [perturb]
  refine .after fun anchors => ?_
  split
  · exact .pure h
  · refine (ensures_ofExcept fun positions hpositions => ?_).bind fun positions hpositions =>
      .pure (make_eq_ok_iff.2 ⟨positions, hpositions, ?_⟩)
    · rwa [hkernel]
    · rw [hkernel, hstep]

end MultiWindowAddressing

namespace Addressing

theorem coherent_random (s : AddressingSettings) : (random s).Ensures Coherent := by
  simp only [random]
  cases s.kind with
  | full => exact .pure trivial
  | window => exact (WindowAddressing.coherent_random _ _).bind fun w hw => .pure hw
  | multiWindow => exact (MultiWindowAddressing.coherent_random _ _ _ _).bind fun w hw => .pure hw

theorem coherent_perturb {a : Addressing} (h : a.Coherent) :
    a.perturb.Ensures fun r => r.2.Coherent := by
  cases a with
  | full => exact .pure trivial
  | window w => exact (w.coherent_perturb h).bind fun r hr => .pure hr
  | multiWindow w => exact (w.coherent_perturb h).bind fun r hr => .pure hr

end Addressing

section draws

variable {E : Halt → Prop}

private theorem meets_expand {kernel : Nat} {anchor shape : List Nat}
    (haxis : 0 ∈ shape → E .emptyAxis) :
    ∀ h, Window.expand? kernel anchor shape = .error h → E h := by
  intro h hh
  rw [Window.expand?] at hh
  split at hh
  · rename_i hzero
    cases hh
    exact haxis (List.mem_of_mem_take hzero.2)
  · cases hh

private theorem meets_expandAll {kernel : Nat} {anchors : List (List Nat)} {shape : List Nat}
    (haxis : 0 ∈ shape → E .emptyAxis) :
    ∀ h, MultiWindowAddressing.expandAll? kernel anchors shape = .error h → E h := by
  refine error_of_bind (error_of_mapM (fun _ => meets_expand haxis) anchors) ?_
  exact fun _ _ h => by cases h

variable (hE : E .starved)
include hE

section perturb

variable (haxis : E .emptyAxis)
include haxis

theorem WindowAddressing.meets_perturb (w : WindowAddressing) :
    w.perturb.Meets E fun o => o.1 = false → o.2 = w := by
  rw [perturb]
  split
  · exact .pure fun _ => rfl
  · refine (meets_nonzeroShift hE fun hstep => absurd (by decide) hstep).bind fun shift _ => ?_
    refine (meets_ofExcept (fun _ _ => trivial) (meets_expand fun _ => haxis)).bind
      fun positions _ => ?_
    exact .pure nofun

theorem MultiWindowAddressing.meets_perturb (w : MultiWindowAddressing)
    (hstep : ¬ w.step < 2 ^ 63 → E .emptyRange) :
    w.perturb.Meets E fun o => (o.1 = false → o.2 = w) ∧ o.2.step = w.step := by
  rw [perturb]
  refine (Meets.mapM (P := fun _ => True) (fun anchor => ?_) _).bind fun anchors _ => ?_
  · split
    · exact .pure trivial
    · exact (meets_nonzeroShift hE hstep).bind fun _ _ => .pure trivial
  · split
    · exact .pure ⟨fun _ => rfl, rfl⟩
    · refine (meets_ofExcept (fun _ _ => trivial) (meets_expandAll fun _ => haxis)).bind
        fun positions _ => ?_
      exact .pure ⟨nofun, rfl⟩

/-- The step of several windows is not negative as a signed word. -/
def Addressing.StepFits : Addressing → Prop
  | .full | .window _ => True
  | .multiWindow w => w.step < 2 ^ 63

theorem Addressing.meets_perturb (a : Addressing) (hstep : ¬ a.StepFits → E .emptyRange) :
    a.perturb.Meets E fun o => (o.1 = false → o.2 = a) ∧ (a.StepFits → o.2.StepFits) := by
  cases a with
  | full => exact .pure ⟨fun _ => rfl, id⟩
  | window w =>
    refine (w.meets_perturb hE haxis).bind fun o ho => .pure ⟨fun h => ?_, fun _ => trivial⟩
    rw [ho h]
  | multiWindow w =>
    refine (w.meets_perturb hE haxis hstep).bind fun o ⟨hsame, hkept⟩ => .pure ⟨fun h => ?_, ?_⟩
    · rw [hsame h]
    · exact fun h => hkept.trans_lt h

end perturb

/-- Anchors are wrapped into an axis of length zero only if the shape has one. -/
theorem Addressing.meets_random {s : AddressingSettings} (haxis : 0 ∈ s.sourceShape → E .emptyAxis)
    (hstep : s.stepSize < 2 ^ 63) : (random s).Meets E StepFits := by
  rw [random]
  cases s.kind with
  | full => exact .pure trivial
  | window =>
    refine Meets.bind (P := fun _ => True) ?_ fun w _ => .pure trivial
    refine (Meets.mapM (P := fun _ => True) (fun d => ?_) _).bind fun anchor _ => ?_
    · exact ((yields_below (Nat.succ_ne_zero _)).meets hE).mono fun _ _ => trivial
    · refine meets_ofExcept (fun _ _ => trivial) ?_
      exact error_of_bind (meets_expand haxis) fun _ _ h => by cases h
  | multiWindow =>
    refine Meets.bind (P := fun w => w.step < 2 ^ 63) ?_ fun w hw => .pure hw
    refine (Meets.mapM (P := fun _ => True) (fun _ => ?_) _).bind fun anchors _ => ?_
    · refine (Meets.mapM (P := fun _ => True) (fun d => ?_) _).mono fun _ _ => trivial
      have hroom : max (d - s.kernelSize) 1 ≠ 0 := by omega
      exact ((yields_below hroom).meets hE).mono fun _ _ => trivial
    · refine meets_ofExcept (fun w hw => ?_) ?_
      · obtain ⟨_, -, rfl⟩ := MultiWindowAddressing.make_eq_ok_iff.1 hw
        dsimp only
        omega
      · exact error_of_bind (meets_expandAll haxis) fun _ _ h => by cases h

end draws

end TangledPrograms
