import TangledPrograms.Proofs.Placement
import TangledPrograms.Proofs.Random.Shifts
import TangledPrograms.Proofs.Snapshot.Decoding

/-!
# What a move can do

A move shifts every anchor by at most the step along each axis, not by nothing, and wraps it. Any
anchors that come about so are those after the move, for some words.
-/

namespace TangledPrograms

open Draw

section expand

variable {shape : List Nat} (hpos : ∀ d ∈ shape, 0 < d) (kernel : Nat)
include hpos

theorem Window.expand?_of_pos (anchor : List Nat) :
    expand? kernel anchor shape = .ok (expand kernel anchor shape) :=
  expand?_of_wrappable (not_unwrappable hpos)

theorem MultiWindowAddressing.expandAll?_of_pos (anchors : List (List Nat)) :
    expandAll? kernel anchors shape = .ok (expandAll kernel anchors shape) :=
  expandAll?_of_wrappable fun _ _ => Window.not_unwrappable hpos

theorem WindowAddressing.make_of_pos (anchor : List Nat) : make anchor shape kernel =
    .ok ⟨anchor, shape, max kernel 1, Window.expand (max kernel 1) anchor shape⟩ :=
  make_eq_ok_iff.2 ⟨_, Window.expand?_of_pos hpos _ anchor, rfl⟩

theorem MultiWindowAddressing.make_of_pos (step : Nat) (anchors : List (List Nat)) :
    make anchors shape kernel step =
      .ok ⟨anchors, shape, max kernel 1, max step 1, expandAll (max kernel 1) anchors shape⟩ :=
  make_eq_ok_iff.2 ⟨_, expandAll?_of_pos hpos _ anchors, rfl⟩

end expand

/-- An anchor is moved by a shift along its axes and wrapped. An anchor without axes stays. -/
def Window.ShiftsTo (step : Nat) (shape x y : List Nat) : Prop :=
  ∃ shift, IsShift x.length step shift ∧ y = moveAnchor x shift shape

theorem Window.shiftsTo_nil_iff {step : Nat} {shape y : List Nat} :
    ShiftsTo step shape [] y ↔ y = [] := by
  constructor
  · rintro ⟨shift, -, rfl⟩
    rfl
  · rintro rfl
    exact ⟨[], ⟨rfl, nofun, fun h => absurd rfl h⟩, rfl⟩

/-- A shifted anchor lies within the block, wherever it lay before. -/
theorem Window.ShiftsTo.within {step : Nat} {shape x y : List Nat} (h : ShiftsTo step shape x y)
    (hlength : x.length = shape.length) (hpos : ∀ d ∈ shape, 0 < d)
    (hsmall : ∀ d ∈ shape, d < 2 ^ 63) : Within shape y := by
  obtain ⟨shift, ⟨hshift, -, -⟩, rfl⟩ := h
  induction shape generalizing x shift with
  | nil =>
    rw [List.length_eq_zero_iff.1 hlength]
    exact .nil
  | cons d shape ih =>
    obtain _ | ⟨c, x⟩ := x
    · cases hlength
    obtain _ | ⟨s, shift⟩ := shift
    · cases hshift
    rw [List.forall_mem_cons] at hpos hsmall
    exact .cons (moveCoordinate_lt c s hpos.1 hsmall.1)
      (ih (Nat.succ.inj hlength) hpos.2 hsmall.2 shift (Nat.succ.inj hshift))

theorem Window.forall₂_shiftsTo_iff {step : Nat} {shape : List Nat} {xs ys : List (List Nat)}
    (h : xs.all List.isEmpty = true) : List.Forall₂ (ShiftsTo step shape) xs ys ↔ ys = xs := by
  induction xs generalizing ys with
  | nil => exact List.forall₂_nil_left_iff
  | cons x xs ih =>
    rw [List.all_cons, Bool.and_eq_true, List.isEmpty_iff] at h
    obtain ⟨rfl, h⟩ := h
    simp only [List.forall₂_cons_left_iff, shiftsTo_nil_iff, ih h]
    exact ⟨fun ⟨_, _, hy, hys, heq⟩ => hy ▸ hys ▸ heq, fun heq => ⟨[], xs, rfl, rfl, heq⟩⟩

namespace Addressing

/-- How far an anchor is moved along an axis at most. -/
def step : Addressing → Nat
  | .full => 0
  | .window _ => 1
  | .multiWindow w => w.step

theorem stepFits_iff {a : Addressing} : a.StepFits ↔ a.step < 2 ^ 63 := by
  rcases a with _ | w | w
  · exact ⟨fun _ => Nat.two_pow_pos 63, fun _ => trivial⟩
  · exact ⟨fun _ => Nat.one_lt_two_pow (by decide), fun _ => trivial⟩
  · exact Iff.rfl

/-- There is an anchor with coordinates, so that a move has something to do. -/
def movable (a : Addressing) : Bool := !a.anchors.all List.isEmpty

theorem movable_window (w : WindowAddressing) : (window w).movable = !w.anchor.isEmpty :=
  congrArg (!·) (Bool.and_true _)

theorem movable_multiWindow (w : MultiWindowAddressing) :
    (multiWindow w).movable = !w.anchors.all List.isEmpty := rfl

/-- The second strategy is the first with every anchor shifted. -/
structure Shifted (a b : Addressing) : Prop where
  kind : b.kind = a.kind
  shape : b.shape = a.shape
  kernel : b.kernel = a.kernel
  step : b.step = a.step
  anchors : List.Forall₂ (Window.ShiftsTo a.step a.shape) a.anchors b.anchors

theorem Shifted.within {a b : Addressing} (h : a.Shifted b)
    (hlength : ∀ x ∈ a.anchors, x.length = a.shape.length) (hpos : ∀ d ∈ a.shape, 0 < d)
    (hsmall : ∀ d ∈ a.shape, d < 2 ^ 63) : ∀ y ∈ b.anchors, Within a.shape y := by
  intro y hy
  obtain ⟨i, hi, rfl⟩ := List.getElem_of_mem hy
  have hi' : i < a.anchors.length := h.anchors.length_eq ▸ hi
  exact (h.anchors.get hi' hi).within (hlength _ (List.getElem_mem hi')) hpos hsmall

theorem Coherent.positions_eq {a : Addressing} (h : a.Coherent) : a.positions = a.points a.shape := by
  rcases a with _ | w | w
  · rfl
  · exact (WindowAddressing.Coherent.positions_eq h).1.trans (List.append_nil _).symm
  · exact (MultiWindowAddressing.Coherent.positions_eq h).1

end Addressing

open Window (ShiftsTo shiftsTo_nil_iff)

section window

variable {w : WindowAddressing} (hpos : ∀ d ∈ w.shape, 0 < d)
include hpos

theorem WindowAddressing.yields_perturb : w.perturb.Yields fun r =>
    (Addressing.window w).Shifted (.window r.2) ∧ r.1 = (Addressing.window w).movable := by
  rw [perturb]
  split
  · rename_i hempty
    have hstays : ShiftsTo 1 w.shape w.anchor w.anchor := by
      rw [List.isEmpty_iff.1 hempty]
      exact shiftsTo_nil_iff.2 rfl
    refine .pure ⟨⟨rfl, rfl, rfl, rfl, .cons hstays .nil⟩, ?_⟩
    rw [Addressing.movable_window, hempty]
    rfl
  · rename_i hempty
    refine (yields_nonzeroShift (by decide)).bind fun shift hshift => ?_
    have hexpand := Window.expand?_of_pos hpos w.kernel (Window.moveAnchor w.anchor shift w.shape)
    refine (yields_ofExcept (P := fun _ => True) hexpand trivial).bind fun _ _ => .pure ?_
    refine ⟨⟨rfl, rfl, rfl, rfl, .cons ⟨shift, hshift, rfl⟩ .nil⟩, ?_⟩
    rw [Addressing.movable_window, eq_false_of_ne_true hempty]
    rfl

theorem WindowAddressing.exists_answers_perturb {y : List Nat} (h : ShiftsTo 1 w.shape w.anchor y) :
    ∃ words v, w.perturb.Answers words ((Addressing.window w).movable, v) ∧ v.anchor = y := by
  rw [perturb, Addressing.movable_window]
  split
  · rename_i hempty
    rw [List.isEmpty_iff.1 hempty, shiftsTo_nil_iff] at h
    rw [hempty]
    exact ⟨[], w, .pure _, (List.isEmpty_iff.1 hempty).trans h.symm⟩
  · rename_i hempty
    obtain ⟨shift, hshift, rfl⟩ := h
    obtain ⟨words, hwords⟩ := exists_answers_nonzeroShift (by decide) hshift
    have hexpand := Window.expand?_of_pos hpos w.kernel (Window.moveAnchor w.anchor shift w.shape)
    rw [eq_false_of_ne_true hempty]
    exact ⟨_, _, hwords.bind (answers_ofExcept hexpand).then_pure, rfl⟩

end window

section windows

variable {w : MultiWindowAddressing} (hstep : w.step < 2 ^ 63) (hpos : ∀ d ∈ w.shape, 0 < d)
include hstep hpos

theorem MultiWindowAddressing.yields_perturb : w.perturb.Yields fun r =>
    (Addressing.multiWindow w).Shifted (.multiWindow r.2) ∧
      r.1 = (Addressing.multiWindow w).movable := by
  rw [perturb]
  refine (Yields.mapM (R := ShiftsTo w.step w.shape) fun x _ => ?_).bind fun xs hxs => ?_
  · split
    · rename_i hempty
      rw [List.isEmpty_iff.1 hempty]
      exact .pure (shiftsTo_nil_iff.2 rfl)
    · exact (yields_nonzeroShift hstep).bind fun shift hshift => .pure ⟨shift, hshift, rfl⟩
  · split
    · rename_i hempty
      have hstay : List.Forall₂ (ShiftsTo w.step w.shape) w.anchors w.anchors :=
        (Window.forall₂_shiftsTo_iff hempty).2 rfl
      refine .pure ⟨⟨rfl, rfl, rfl, rfl, hstay⟩, ?_⟩
      rw [Addressing.movable_multiWindow, hempty]
      rfl
    · rename_i hempty
      have hexpand := expandAll?_of_pos hpos w.kernel xs
      refine (yields_ofExcept (P := fun _ => True) hexpand trivial).bind fun _ _ => .pure ?_
      refine ⟨⟨rfl, rfl, rfl, rfl, hxs⟩, ?_⟩
      rw [Addressing.movable_multiWindow, eq_false_of_ne_true hempty]
      rfl

theorem MultiWindowAddressing.exists_answers_perturb {ys : List (List Nat)}
    (h : List.Forall₂ (ShiftsTo w.step w.shape) w.anchors ys) :
    ∃ words v, w.perturb.Answers words ((Addressing.multiWindow w).movable, v) ∧ v.anchors = ys := by
  have hanswer : ∀ x y, ShiftsTo w.step w.shape x y → ∃ words,
      (if x.isEmpty then pure x
        else do pure (Window.moveAnchor x (← nonzeroShift x.length w.step) w.shape)).Answers
        words y := by
    intro x y hxy
    split
    · rename_i hempty
      rw [List.isEmpty_iff.1 hempty, shiftsTo_nil_iff] at hxy
      exact ⟨[], hxy ▸ List.isEmpty_iff.1 hempty ▸ .pure _⟩
    · obtain ⟨shift, hshift, rfl⟩ := hxy
      obtain ⟨words, hwords⟩ := exists_answers_nonzeroShift hstep hshift
      exact ⟨words, hwords.then_pure⟩
  obtain ⟨words, hwords⟩ := exists_answers_mapM (h.imp hanswer)
  rw [perturb, Addressing.movable_multiWindow]
  by_cases hempty : w.anchors.all List.isEmpty = true
  · simp only [hempty, if_true]
    exact ⟨words, w, hwords.then_pure, ((Window.forall₂_shiftsTo_iff hempty).1 h).symm⟩
  · have hexpand := expandAll?_of_pos hpos w.kernel ys
    rw [eq_false_of_ne_true hempty]
    exact ⟨_, _, hwords.bind (answers_ofExcept hexpand).then_pure, rfl⟩

end windows

namespace Addressing

variable {a b : Addressing} (hstep : a.StepFits) (hpos : ∀ d ∈ a.shape, 0 < d)
include hstep hpos

/-- A move shifts the anchors; it only fails for want of words. -/
theorem yields_perturb : a.perturb.Yields fun r => a.Shifted r.2 ∧ r.1 = a.movable := by
  rcases a with _ | w | w
  · exact .pure ⟨⟨rfl, rfl, rfl, rfl, .nil⟩, rfl⟩
  · exact (WindowAddressing.yields_perturb hpos).bind fun r hr => .pure hr
  · exact (MultiWindowAddressing.yields_perturb hstep hpos).bind fun r hr => .pure hr

/-- Every shift of the anchors comes about. -/
theorem exists_answers_perturb {ys : List (List Nat)}
    (h : List.Forall₂ (ShiftsTo a.step a.shape) a.anchors ys) :
    ∃ words b, a.perturb.Answers words (a.movable, b) ∧ b.anchors = ys := by
  rcases a with _ | w | w
  · cases h
    exact ⟨[], .full, .pure _, rfl⟩
  · obtain _ | ⟨h, ⟨⟩⟩ := h
    obtain ⟨words, v, hv, rfl⟩ := WindowAddressing.exists_answers_perturb hpos h
    exact ⟨words, .window v, hv.then_pure, rfl⟩
  · obtain ⟨words, v, hv, rfl⟩ := MultiWindowAddressing.exists_answers_perturb hstep hpos h
    exact ⟨words, .multiWindow v, hv.then_pure, rfl⟩

end Addressing

end TangledPrograms
