import TangledPrograms.Proofs.Addressing.Shifting

/-!
# Windows keep to the block

However often a strategy is moved, its anchors lie within the block and it has as many positions, each
of a number of the block, as its windows have points. New windows lie clear of the edges where there
is room.
-/

namespace TangledPrograms

open Draw

/-- The window at the anchor does not wrap around an edge of the block. -/
def Window.Clear (shape : List Nat) (kernel : Nat) (anchor : List Nat) : Prop :=
  ∀ offset, Within (List.replicate shape.length kernel) offset → Within shape (moved anchor offset)

namespace Window

variable {shape anchor : List Nat} {kernel : Nat}

/-- A window wraps around no edge if it ends before all of them. -/
theorem clear_of_forall₂ (hlong : ∀ d ∈ shape, kernel < d)
    (h : List.Forall₂ (fun d c => c < d ∧ (kernel < d → c + kernel ≤ d)) shape anchor) :
    Clear shape kernel anchor := by
  induction h with
  | nil =>
    intro offset hoffset
    cases hoffset
    exact .nil
  | @cons d c shape anchor hc h ih =>
    rw [List.forall_mem_cons] at hlong
    intro offset hoffset
    rw [List.length_cons, List.replicate_succ] at hoffset
    obtain _ | ⟨ho, hoffset⟩ := hoffset
    have hmoved : c + _ < d := (Nat.add_lt_add_left ho c).trans_le (hc.2 hlong.1)
    exact .cons hmoved (ih hlong.2 _ hoffset)

/-- An anchor is drawn below a bound that leaves room for its window, where there is any. -/
theorem yields_anchor {room : Nat → Nat} (hpos : ∀ d ∈ shape, 0 < d)
    (hroom : ∀ d, 0 < d → room d ≠ 0 ∧ room d ≤ d ∧ (kernel < d → room d + kernel ≤ d)) :
    (shape.mapM fun d => below .word64 (room d)).Yields fun x =>
      Within shape x ∧ ((∀ d ∈ shape, kernel < d) → Clear shape kernel x) := by
  refine (Yields.mapM (R := fun d c => c < d ∧ (kernel < d → c + kernel ≤ d))
    fun d hd => ?_).mono fun x hx => ⟨(hx.imp fun _ _ h => h.1).flip, fun h => clear_of_forall₂ h hx⟩
  obtain ⟨hne, hle, hclear⟩ := hroom d (hpos d hd)
  refine (yields_below hne).mono fun c hc => ⟨hc.trans_le hle, fun h => ?_⟩
  have hend := hclear h
  omega

end Window

namespace Addressing

def perturbTimes : Nat → Addressing → Draw Addressing
  | 0, a => pure a
  | n + 1, a => do perturbTimes n (← a.perturb).2

/-- So many windows of one size for blocks of one shape, though perhaps not within these. -/
structure Framed (shape : List Nat) (kernel windows : Nat) (a : Addressing) : Prop where
  coherent : a.Coherent
  step : a.step < 2 ^ 62
  count : a.anchors.length = windows
  length_anchor : ∀ x ∈ a.anchors, x.length = shape.length
  kernel : a.kernel = kernel
  shape : a.shape = shape

/-- The anchors lie within the block, and the stored positions are as many as the windows have points,
each of a number of the block. -/
structure Confined (shape : List Nat) (kernel windows : Nat) (a : Addressing) : Prop where
  count : a.anchors.length = windows
  within : ∀ x ∈ a.anchors, Within shape x
  length_positions : a.positions.length = windows * kernel ^ shape.length
  position_lt : ∀ p ∈ a.positions, p < volume shape

variable {shape : List Nat} {kernel windows step : Nat} {a : Addressing}

theorem Framed.confined (h : a.Framed shape kernel windows) (hshape : shape ≠ [])
    (hpos : ∀ d ∈ shape, 0 < d) (hin : ∀ x ∈ a.anchors, Within shape x) :
    a.Confined shape kernel windows where
  count := h.count
  within := hin
  length_positions := by
    rw [h.coherent.positions_eq, h.shape, length_points h.length_anchor hshape, h.count, h.kernel]
  position_lt p hp := by
    rw [h.coherent.positions_eq, h.shape, points, List.mem_flatMap] at hp
    obtain ⟨x, hx, hp⟩ := hp
    exact Window.lt_of_mem_expand (h.length_anchor x hx) hshape hpos hp

section moves

variable (hpos : ∀ d ∈ shape, 0 < d) (hsmall : ∀ d ∈ shape, d < 2 ^ 62)
include hpos hsmall

/-- One move: wherever the windows lay, they lie within the block now. -/
theorem Framed.yields_perturb (h : a.Framed shape kernel windows) :
    a.perturb.Yields fun r => r.2.Framed shape kernel windows ∧ ∀ x ∈ r.2.anchors, Within shape x := by
  obtain ⟨hcoherent, hstep, rfl, hlength, rfl, rfl⟩ := h
  have hfits : a.StepFits := stepFits_iff.2 (hstep.trans (by decide))
  refine ((Addressing.yields_perturb hfits hpos).and_ensures (coherent_perturb hcoherent)).mono ?_
  rintro ⟨_, b⟩ ⟨⟨hshifted, -⟩, hb⟩
  have hin := hshifted.within hlength hpos fun d hd => (hsmall d hd).trans (by decide)
  refine ⟨⟨hb, hshifted.step ▸ hstep, hshifted.anchors.length_eq.symm, ?_, hshifted.kernel,
    hshifted.shape⟩, hin⟩
  exact fun x hx => (hin x hx).length_eq

/-- Windows that lie within the block keep to it, however often they are moved. -/
theorem Framed.yields_perturbTimes (hshape : shape ≠ []) (n : Nat)
    (h : a.Framed shape kernel windows) (hin : ∀ x ∈ a.anchors, Within shape x) :
    (perturbTimes n a).Yields (Confined shape kernel windows) := by
  induction n generalizing a with
  | zero => exact .pure (h.confined hshape hpos hin)
  | succ n ih => exact (h.yields_perturb hpos hsmall).bind fun r hr => ih hr.1 hr.2

end moves

/-- Windows within the block, and clear of its edges where there is room. -/
def Placed (shape : List Nat) (kernel : Nat) (a : Addressing) : Prop :=
  ∀ x ∈ a.anchors, Within shape x ∧ ((∀ d ∈ shape, kernel < d) → Window.Clear shape kernel x)

section draws

variable (hpos : ∀ d ∈ shape, 0 < d) (hkernel : 0 < kernel)
include hpos hkernel

theorem yields_random_window : (WindowAddressing.random shape kernel).Yields fun w =>
    (window w).Framed shape kernel 1 ∧ (window w).Placed shape kernel := by
  rw [WindowAddressing.random]
  have hroom : ∀ d, 0 < d → d - (kernel + 1) + 1 ≠ 0 ∧ d - (kernel + 1) + 1 ≤ d ∧
      (kernel < d → d - (kernel + 1) + 1 + kernel ≤ d) := by omega
  refine (Window.yields_anchor hpos hroom).bind fun x hx => ?_
  have hmake := WindowAddressing.make_of_pos hpos kernel x
  refine yields_ofExcept hmake ⟨⟨WindowAddressing.coherent_of_make hmake, ?_, rfl, ?_, ?_, rfl⟩, ?_⟩
  · exact Nat.one_lt_two_pow (by decide)
  · exact List.forall_mem_singleton.2 hx.1.length_eq
  · exact Nat.max_eq_left hkernel
  · exact List.forall_mem_singleton.2 hx

theorem yields_random_multiWindow (points : Nat) (hstep : step < 2 ^ 62) :
    (MultiWindowAddressing.random shape kernel points step).Yields fun w =>
      (multiWindow w).Framed shape kernel points ∧ (multiWindow w).Placed shape kernel := by
  rw [MultiWindowAddressing.random]
  have hroom : ∀ d, 0 < d → max (d - kernel) 1 ≠ 0 ∧ max (d - kernel) 1 ≤ d ∧
      (kernel < d → max (d - kernel) 1 + kernel ≤ d) := by omega
  refine (Yields.mapM fun _ _ => Window.yields_anchor hpos hroom).bind fun xs hxs => ?_
  have hmake := MultiWindowAddressing.make_of_pos hpos kernel step xs
  have hplaced := forall_mem_of_forall₂ hxs
  refine yields_ofExcept hmake
    ⟨⟨MultiWindowAddressing.coherent_of_make hmake, ?_, ?_, ?_, ?_, rfl⟩, hplaced⟩
  · change max step 1 < 2 ^ 62
    omega
  · exact hxs.length_eq.symm.trans List.length_replicate
  · exact fun x hx => (hplaced x hx).1.length_eq
  · exact Nat.max_eq_left hkernel

end draws

theorem perturbTimes_confined (points : Nat) (hshape : shape ≠ []) (hpos : ∀ d ∈ shape, 0 < d)
    (hsmall : ∀ d ∈ shape, d < 2 ^ 62) (hkernel : 0 < kernel) (hstep : step < 2 ^ 62) (n : Nat) :
    (do perturbTimes n (.window (← WindowAddressing.random shape kernel))).Yields
      (Confined shape kernel 1) ∧
    (do perturbTimes n (.multiWindow (← MultiWindowAddressing.random shape kernel points step))).Yields
      (Confined shape kernel points) ∧
    (∀ windows a, a.Framed shape kernel windows →
      (perturbTimes (n + 1) a).Yields (Confined shape kernel windows)) ∧
    ((∀ d ∈ shape, kernel < d) →
      (WindowAddressing.random shape kernel).Yields (fun w => Window.Clear shape kernel w.anchor) ∧
      (MultiWindowAddressing.random shape kernel points step).Yields
        (fun w => ∀ x ∈ w.anchors, Window.Clear shape kernel x)) := by
  have hwindow := yields_random_window hpos hkernel
  have hwindows := yields_random_multiWindow hpos hkernel points hstep
  refine ⟨?_, ?_, ?_, fun hlong => ⟨?_, ?_⟩⟩
  · refine hwindow.bind fun w ⟨hframed, hplaced⟩ => ?_
    exact hframed.yields_perturbTimes hpos hsmall hshape n fun x hx => (hplaced x hx).1
  · refine hwindows.bind fun w ⟨hframed, hplaced⟩ => ?_
    exact hframed.yields_perturbTimes hpos hsmall hshape n fun x hx => (hplaced x hx).1
  · intro windows a hframed
    refine (hframed.yields_perturb hpos hsmall).bind fun r ⟨hmoved, hin⟩ => ?_
    exact hmoved.yields_perturbTimes hpos hsmall hshape n hin
  · exact hwindow.mono fun w ⟨_, hplaced⟩ => (hplaced w.anchor List.mem_cons_self).2 hlong
  · exact hwindows.mono fun w ⟨_, hplaced⟩ x hx => (hplaced x hx).2 hlong

def strayWindow : Addressing := .window ⟨[100, 7], [4, 5], 2, [2, 3, 7, 8]⟩

theorem strayWindow_confined :
    (do perturbTimes 3 (.window (← WindowAddressing.random [4, 5] 2))).Yields (Confined [4, 5] 2 1) ∧
    (do perturbTimes 3 (.multiWindow (← MultiWindowAddressing.random [4, 5] 2 6 9))).Yields
      (Confined [4, 5] 2 6) ∧
    (perturbTimes 4 strayWindow).Yields (Confined [4, 5] 2 1) ∧
    (WindowAddressing.random [4, 5] 2).Yields fun w => Window.Clear [4, 5] 2 w.anchor := by
  have hframed : strayWindow.Framed [4, 5] 2 1 := by
    refine ⟨?_, by decide, rfl, by decide, rfl, rfl⟩
    change WindowAddressing.make _ _ _ = _
    decide
  have hshape : [4, 5] ≠ [] := by decide
  obtain ⟨hwindow, hwindows, hmoved, hclear⟩ :=
    perturbTimes_confined 6 hshape (by decide) (by decide) Nat.two_pos (show 9 < 2 ^ 62 by decide) 3
  exact ⟨hwindow, hwindows, hmoved 1 strayWindow hframed, (hclear (by decide)).1⟩

end Addressing

end TangledPrograms
