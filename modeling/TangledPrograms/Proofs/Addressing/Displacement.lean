import TangledPrograms.Proofs.Addressing.Shifting

/-!
# Whether a move displaces the windows

A shift is not zero, but a multiple of an axis' length is wrapped to nothing. So windows are displaced
by every move just if the step is shorter than all axes; else a move may leave the strategy as it was,
though it tells that it moved. Axes and steps are below a quarter of a word and volumes within one, so
that no sum or product wraps as a word.
-/

namespace TangledPrograms

open Draw

namespace Window

/-- The sum of a coordinate below a quarter of a word and a shift of at most as much is none that
wraps. -/
theorem moveCoordinate_eq {coordinate length : Nat} {shift : Int} (h : coordinate < length)
    (hsmall : length < 2 ^ 62) (hshift : |shift| ≤ 2 ^ 62) :
    moveCoordinate coordinate shift length = ((coordinate + shift) % length : Int).toNat := by
  obtain ⟨hlow, hhigh⟩ := abs_le.1 hshift
  have hsum : Int.bmod ((coordinate : Int) + shift) UInt64.size = coordinate + shift := by
    refine Int.bmod_eq_of_le ?_ ?_ <;> norm_num [UInt64.size] <;> omega
  rw [moveCoordinate, Nat.max_eq_left (by omega), signedWord_of_lt (by omega),
    signedWord_of_lt (by omega), hsum]

theorem moveCoordinate_eq_self_iff {coordinate length : Nat} {shift : Int} (h : coordinate < length)
    (hsmall : length < 2 ^ 62) (hshift : |shift| ≤ 2 ^ 62) :
    moveCoordinate coordinate shift length = coordinate ↔ (length : Int) ∣ shift := by
  have hlow := Int.emod_nonneg (coordinate + shift) (Int.natCast_ne_zero.2 (Nat.ne_zero_of_lt h))
  have hself : (coordinate : Int) % length = coordinate := Int.emod_eq_of_lt (by omega) (by omega)
  rw [moveCoordinate_eq h hsmall hshift]
  calc ((coordinate + shift) % length : Int).toNat = coordinate
      ↔ ((coordinate + shift) % length : Int) = (coordinate : Int) % length := by omega
    _ ↔ (length : Int) ∣ coordinate + shift - coordinate := Int.emod_eq_emod_iff_emod_sub_eq_zero.trans
        Int.dvd_iff_emod_eq_zero.symm
    _ ↔ (length : Int) ∣ shift := by rw [add_sub_cancel_left]

/-- An anchor stays if each axis is shifted by a multiple of its length. -/
theorem moveAnchor_eq_self_iff {anchor shape : List Nat} {shift : List Int} (h : Within shape anchor)
    (hsmall : ∀ d ∈ shape, d < 2 ^ 62) (hshift : ∀ s ∈ shift, |s| ≤ 2 ^ 62)
    (hlength : shift.length = anchor.length) :
    moveAnchor anchor shift shape = anchor ↔
      List.Forall₂ (fun (s : Int) (d : Nat) => (d : Int) ∣ s) shift shape := by
  induction h generalizing shift with
  | nil =>
    rw [List.length_eq_zero_iff.1 hlength]
    exact ⟨fun _ => .nil, fun _ => rfl⟩
  | @cons c d anchor shape hc h ih =>
    obtain _ | ⟨s, shift⟩ := shift
    · cases hlength
    · rw [List.forall_mem_cons] at hsmall hshift
      rw [moveAnchor, List.cons.injEq, moveCoordinate_eq_self_iff hc hsmall.1 hshift.1,
        ih hsmall.2 hshift.2 (Nat.succ.inj hlength), List.forall₂_cons]

variable {axes step : Nat} {shape : List Nat} {shift : List Int}

theorem abs_le_of_isShift (h : IsShift axes step shift) (hstep : step < 2 ^ 62) :
    ∀ s ∈ shift, |s| ≤ 2 ^ 62 := by
  intro s hs
  have hbounded := h.bounded s hs
  omega

/-- A shift that is shorter than the axes is not a multiple of all of them. -/
theorem not_forall₂_dvd (h : IsShift axes step shift) (haxes : axes ≠ 0)
    (hlong : ∀ d ∈ shape, max step 1 < d) :
    ¬ List.Forall₂ (fun (s : Int) (d : Nat) => (d : Int) ∣ s) shift shape := by
  intro hdvd
  obtain ⟨s, hs, hne⟩ := h.nonzero haxes
  obtain ⟨i, hi, rfl⟩ := List.getElem_of_mem hs
  have hi' : i < shape.length := hdvd.length_eq ▸ hi
  have hlt : (max step 1 : Nat) < (shape[i] : Int) := by exact_mod_cast hlong _ (List.getElem_mem hi')
  exact hne (Int.eq_zero_of_abs_lt_dvd (hdvd.get hi hi') ((h.bounded _ hs).trans_lt hlt))

/-- A shift by the whole length of an axis, and not along the others. -/
theorem exists_isShift_dvd {d : Nat} (hd : d ∈ shape) (hpos : 0 < d) (hle : d ≤ step) :
    ∃ shift, IsShift shape.length step shift ∧
      List.Forall₂ (fun (s : Int) (d : Nat) => (d : Int) ∣ s) shift shape := by
  refine ⟨shape.map fun e => if e = d then (d : Int) else 0, ⟨List.length_map _, ?_, ?_⟩, ?_⟩
  · intro s hs
    obtain ⟨e, -, rfl⟩ := List.mem_map.1 hs
    split
    · rw [Int.abs_natCast]
      omega
    · rw [abs_zero]
      omega
  · exact fun _ => ⟨d, List.mem_map.2 ⟨d, hd, if_pos rfl⟩, by omega⟩
  · rw [List.forall₂_map_left_iff, List.forall₂_same]
    intro e _
    split
    · rename_i heq
      rw [heq]
    · exact Int.dvd_zero _

/-- Windows within the block are displaced by all shifts if these are shorter than the axes. -/
theorem ShiftsTo.ne {x y : List Nat} (h : ShiftsTo step shape x y) (hx : Within shape x)
    (hsmall : ∀ d ∈ shape, d < 2 ^ 62) (hstep : step < 2 ^ 62)
    (hlong : ∀ d ∈ shape, max step 1 < d) (hne : x ≠ []) : x ≠ y := by
  obtain ⟨shift, hshift, rfl⟩ := h
  intro heq
  refine not_forall₂_dvd hshift (mt List.length_eq_zero_iff.1 hne) hlong ?_
  exact (moveAnchor_eq_self_iff hx hsmall (abs_le_of_isShift hshift hstep) hshift.length).1 heq.symm

theorem shiftsTo_self {x : List Nat} {d : Nat} (hx : Within shape x)
    (hsmall : ∀ d ∈ shape, d < 2 ^ 62) (hstep : step < 2 ^ 62) (hd : d ∈ shape) (hpos : 0 < d)
    (hle : d ≤ step) : ShiftsTo step shape x x := by
  obtain ⟨shift, hshift, hdvd⟩ := exists_isShift_dvd hd hpos hle
  rw [← hx.length_eq] at hshift
  have hstay := moveAnchor_eq_self_iff hx hsmall (abs_le_of_isShift hshift hstep) hshift.length
  exact ⟨shift, hshift, (hstay.2 hdvd).symm⟩

end Window

namespace Addressing

variable {a b : Addressing}

theorem Coherent.step_pos (h : a.Coherent) (hanchors : a.anchors ≠ []) : 0 < a.step := by
  rcases a with _ | w | w
  · exact absurd rfl hanchors
  · exact Nat.one_pos
  · obtain ⟨_, -, hw⟩ := MultiWindowAddressing.make_eq_ok_iff.1 h
    have hstep : max w.step 1 = w.step := congrArg MultiWindowAddressing.step hw
    change 0 < w.step
    omega

section points

variable {shape : List Nat} (hsmall : ∀ d ∈ shape, d < 2 ^ 62) (hvolume : volume shape ≤ UInt64.size)
include hsmall hvolume

/-- The lowest point of a window within the block stands first. -/
theorem getElem?_points_lowest {anchor : List Nat} {i : Nat} (h : ∀ x ∈ a.anchors, Within shape x)
    (hshape : shape ≠ []) (hkernel : 0 < a.kernel) (hi : a.anchors[i]? = some anchor) :
    (a.points shape)[i * a.kernel ^ shape.length]? = some (place shape anchor) := by
  have hin := h anchor (List.mem_of_getElem? hi)
  have hzeros := within_replicate hkernel shape.length
  have hmoved : movedWord anchor (List.replicate shape.length 0) = anchor := by
    have hzero := moved_zero anchor
    rw [hin.length_eq] at hzero
    refine (movedWord_eq fun c hc => ?_).trans hzero
    rw [hzero] at hc
    obtain ⟨d, hd, hcd⟩ := hin.exists_of_mem hc
    exact (hcd.trans (hsmall d hd)).trans (by decide)
  have hpoint := getElem?_points (fun x hx => (h x hx).length_eq) hshape hi hzeros
  rwa [Window.getElem?_expand hin.length_eq hshape hzeros, place_zero, Nat.add_zero, hmoved,
    wrap_eq_self hin, lowWord_of_lt ((place_lt hin).trans_le hvolume)] at hpoint

/-- Windows within the block that have the same points are the same. -/
theorem points_inj (ha : ∀ x ∈ a.anchors, Within shape x)
    (hb : ∀ x ∈ b.anchors, Within shape x) (hshape : shape ≠ []) (hkernel : b.kernel = a.kernel)
    (hpos : 0 < a.kernel) (hcount : a.anchors.length = b.anchors.length)
    (h : a.points shape = b.points shape) : a.anchors = b.anchors := by
  refine List.ext_getElem hcount fun i hi hi' => ?_
  have hx := getElem?_points_lowest hsmall hvolume ha hshape hpos (List.getElem?_eq_getElem hi)
  have hy := getElem?_points_lowest hsmall hvolume hb hshape (hkernel ▸ hpos)
    (List.getElem?_eq_getElem hi')
  rw [h, ← hkernel, hy] at hx
  exact place_inj (ha _ (List.getElem_mem hi)) (hb _ (List.getElem_mem hi')) (Option.some.inj hx.symm)

end points

/-- Every window has another anchor, and the points shown are others. -/
structure Displaced (a b : Addressing) : Prop where
  anchors : List.Forall₂ (· ≠ ·) a.anchors b.anchors
  positions : a.positions ≠ b.positions

/-- Windows within the block can be moved if there are windows and axes. -/
theorem movable_iff (hin : ∀ x ∈ a.anchors, Within a.shape x) :
    a.movable = true ↔ a.anchors ≠ [] ∧ a.shape ≠ [] := by
  have hnil : ∀ x ∈ a.anchors, (x = [] ↔ a.shape = []) := by
    intro x hx
    rw [← List.length_eq_zero_iff, (hin x hx).length_eq, List.length_eq_zero_iff]
  rw [movable, Bool.not_eq_true', List.all_eq_false]
  simp only [List.isEmpty_iff]
  constructor
  · rintro ⟨x, hx, hne⟩
    exact ⟨List.ne_nil_of_mem hx, mt (hnil x hx).2 hne⟩
  · rintro ⟨hanchors, hshape⟩
    obtain ⟨x, hx⟩ := List.exists_mem_of_ne_nil _ hanchors
    exact ⟨x, hx, mt (hnil x hx).1 hshape⟩

section displaces

variable (hc : a.Coherent) (hin : ∀ x ∈ a.anchors, Within a.shape x)
  (hsmall : ∀ d ∈ a.shape, d < 2 ^ 62) (hstep : a.step < 2 ^ 62)
  (hvolume : volume a.shape ≤ UInt64.size)
include hc hin hsmall hstep hvolume

/-- A shift of windows that can be moved, with a step shorter than the axes. -/
theorem Shifted.displaced (h : a.Shifted b) (hb : b.Coherent) (hmovable : a.movable = true)
    (hlong : ∀ d ∈ a.shape, a.step < d) : a.Displaced b := by
  obtain ⟨hanchors, hshape⟩ := (movable_iff hin).1 hmovable
  obtain ⟨x, hx⟩ := List.exists_mem_of_ne_nil _ hanchors
  have hlonger : max a.step 1 = a.step := Nat.max_eq_left (hc.step_pos hanchors)
  have hne : List.Forall₂ (· ≠ ·) a.anchors b.anchors := by
    refine List.forall₂_iff_get.2 ⟨h.anchors.length_eq, fun i hi hi' => ?_⟩
    have hx := hin _ (List.getElem_mem hi)
    have hnil : a.anchors[i] ≠ [] := by
      rwa [← List.length_pos_iff, hx.length_eq, List.length_pos_iff]
    exact (h.anchors.get hi hi').ne hx hsmall hstep (hlonger.symm ▸ hlong) hnil
  refine ⟨hne, fun hpositions => ?_⟩
  have hlength : ∀ x ∈ a.anchors, x.length = a.shape.length := fun x hx => (hin x hx).length_eq
  have hpos : ∀ d ∈ a.shape, 0 < d := fun d hd => Nat.zero_lt_of_lt (hlong d hd)
  have hkernel : 0 < a.kernel := hc.kernel_pos ⟨hanchors, hlength, hpos⟩
  have hin' := h.within hlength hpos fun d hd => (hsmall d hd).trans (by decide)
  have heq : a.anchors = b.anchors := by
    refine points_inj hsmall hvolume hin hin' hshape h.kernel hkernel h.anchors.length_eq ?_
    rw [← hc.positions_eq, hpositions, hb.positions_eq, h.shape]
  rw [← heq, List.forall₂_same] at hne
  exact hne x hx rfl

/-- Every move that tells of a change displaces all windows just if the step is shorter than every
axis. -/
theorem displaces_iff (hpos : ∀ d ∈ a.shape, 0 < d) :
    (a.perturb.Ensures fun r => r.1 = true → a.Displaced r.2) ↔
      a.anchors = [] ∨ ∀ d ∈ a.shape, a.step < d := by
  have hfits : a.StepFits := stepFits_iff.2 (hstep.trans (by decide))
  constructor
  · intro hdisplaces
    by_contra hshort
    push Not at hshort
    obtain ⟨hanchors, d, hd, hle⟩ := hshort
    obtain ⟨x, hx⟩ := List.exists_mem_of_ne_nil _ hanchors
    have hstay : List.Forall₂ (Window.ShiftsTo a.step a.shape) a.anchors a.anchors :=
      List.forall₂_same.2 fun x hx => Window.shiftsTo_self (hin x hx) hsmall hstep hd (hpos d hd) hle
    obtain ⟨words, b, hanswer, hb⟩ := exists_answers_perturb hfits hpos hstay
    have hmovable : a.movable = true :=
      (movable_iff hin).2 ⟨hanchors, List.ne_nil_of_mem hd⟩
    have hdisplaced := (hdisplaces _ _ _ (hanswer _ (Source.shows_ofWords words)) hmovable).anchors
    rw [hb, List.forall₂_same] at hdisplaced
    exact hdisplaced x hx rfl
  · rintro (hnone | hlong) <;>
      refine ((yields_perturb hfits hpos).and_ensures (coherent_perturb hc)).ensures.mono ?_ <;>
      rintro ⟨_, b⟩ ⟨⟨hshifted, rfl⟩, hb⟩ hmovable
    · exact absurd hnone ((movable_iff hin).1 hmovable).1
    · exact hshifted.displaced hc hin hsmall hstep hvolume hb hmovable hlong

end displaces

theorem cornerWindows_displaced :
    cornerWindows.perturb.Ensures fun r => r.1 = true → cornerWindows.Displaced r.2 := by
  have hcoherent : cornerWindows.Coherent := by
    change MultiWindowAddressing.make _ _ _ _ = _
    decide
  have hlong : ∀ d ∈ cornerWindows.shape, cornerWindows.step < d := by decide
  exact (displaces_iff hcoherent (by decide) (by decide) (by decide) (by decide) (by decide)).2
    (.inr hlong)

def loneWindow : Addressing := .window ⟨[0], [1], 1, [0]⟩

/-- A window of one point, moved by as much as the length of its axis. -/
def roundWindow : Addressing := .multiWindow ⟨[[2]], [3], 1, 3, [2]⟩

/-- The first shift is by one, the second by three; both are wrapped to nothing. -/
theorem loneWindow_stays :
    (loneWindow.Coherent ∧ (∀ x ∈ loneWindow.anchors, Within loneWindow.shape x) ∧
      (loneWindow.perturb (.ofWords [0])).map Prod.fst = .ok (true, loneWindow)) ∧
    roundWindow.Coherent ∧ (∀ x ∈ roundWindow.anchors, Within roundWindow.shape x) ∧
      (roundWindow.perturb (.ofWords [0xe000000000000000])).map Prod.fst = .ok (true, roundWindow) := by
  refine ⟨⟨?_, by decide, by decide +kernel⟩, ?_, by decide, by decide +kernel⟩
  · change WindowAddressing.make _ _ _ = _
    decide
  · change MultiWindowAddressing.make _ _ _ _ = _
    decide

end Addressing

end TangledPrograms
