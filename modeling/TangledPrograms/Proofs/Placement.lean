import TangledPrograms.Proofs.Views

/-!
# Anchors stay in the block

Random anchors lie within the shape that a strategy is made for, and a moved coordinate is wrapped to
the length of its axis, which must not be negative as a signed word. So the windows of a strategy keep
to the block, and the positions that are stored are those of the anchors that it has now.
-/

namespace TangledPrograms

open Draw

namespace Window

theorem moveCoordinate_lt (coordinate : Nat) (shift : Int) {length : Nat} (hpos : 0 < length)
    (hsmall : length < 2 ^ 63) : moveCoordinate coordinate shift length < length := by
  rw [moveCoordinate, Nat.max_eq_left hpos, signedWord_of_lt hsmall]
  generalize Int.bmod (signedWord coordinate + shift) UInt64.size = sum
  have hlow := Int.emod_nonneg sum (Int.natCast_ne_zero.2 hpos.ne')
  have hhigh := Int.emod_lt_of_pos sum (Int.natCast_pos.2 hpos)
  omega

theorem within_moveAnchor {anchor shape : List Nat} (shift : List Int) (h : Within shape anchor)
    (hsmall : ∀ d ∈ shape, d < 2 ^ 63) : Within shape (moveAnchor anchor shift shape) := by
  induction h generalizing shift with
  | nil => exact .nil
  | @cons c d anchor shape hc h ih =>
    rw [List.forall_mem_cons] at hsmall
    cases shift with
    | nil => exact .cons hc h
    | cons s shift =>
      exact .cons (moveCoordinate_lt c s (Nat.zero_lt_of_lt hc) hsmall.1) (ih shift hsmall.2)

/-- Coordinates that are drawn below the length of their axes. -/
theorem ensures_anchor {shape : List Nat} {room : Nat → Nat}
    (hroom : ∀ d ∈ shape, room d ≠ 0 ∧ room d ≤ d) :
    (shape.mapM fun d => below .word64 (room d)).Ensures (Within shape) := by
  refine (Ensures.mapM (R := fun d c => c < d) fun d hd => ?_).mono fun _ h => h.flip
  obtain ⟨hne, hle⟩ := hroom d hd
  exact (yields_below hne).ensures.mono fun _ hc => hc.trans_le hle

end Window

def Addressing.positions : Addressing → List Nat
  | .full => []
  | .window w => w.positions
  | .multiWindow w => w.positions

/-- A strategy of the configured kind for blocks of the configured shape: its anchors lie within the
block, and the stored positions are those of its windows' points. -/
structure Addressing.WellPlaced (s : AddressingSettings) (a : Addressing) : Prop where
  kind : a.kind = s.kind
  shape : a.kind ≠ .full → a.shape = s.sourceShape
  kernel : a.kind ≠ .full → a.kernel = max s.kernelSize 1
  within : ∀ x ∈ a.anchors, Within a.shape x
  positions : a.positions = a.points a.shape

namespace Addressing

variable {s : AddressingSettings}

theorem wellPlaced_full (h : s.kind = .full) : WellPlaced s .full :=
  ⟨h.symm, fun hkind => absurd rfl hkind, fun hkind => absurd rfl hkind, nofun, rfl⟩

/-- One window within the block, made with its positions. -/
theorem wellPlaced_window (hkind : s.kind = .window) {w : WindowAddressing}
    (hshape : w.shape = s.sourceShape) (hkernel : w.kernel = max s.kernelSize 1)
    (hanchor : Within w.shape w.anchor)
    (hpositions : w.positions = Window.expand w.kernel w.anchor w.shape) :
    WellPlaced s (.window w) where
  kind := hkind.symm
  shape _ := hshape
  kernel _ := hkernel
  within := List.forall_mem_singleton.2 hanchor
  positions := hpositions.trans (List.append_nil _).symm

/-- Every new strategy is well placed. -/
theorem ensures_random (hpos : ∀ d ∈ s.sourceShape, 0 < d) : (random s).Ensures (WellPlaced s) := by
  rw [random]
  cases hkind : s.kind with
  | full => exact .pure (wellPlaced_full hkind)
  | window =>
    refine Ensures.bind (P := fun w => WellPlaced s (.window w)) ?_ fun w hw => .pure hw
    refine (Window.ensures_anchor fun d hd => ?_).bind fun anchor hanchor => ?_
    · have := hpos d hd
      omega
    · refine ensures_ofExcept fun w hw => ?_
      obtain ⟨positions, hpositions, rfl⟩ := WindowAddressing.make_eq_ok_iff.1 hw
      exact wellPlaced_window hkind rfl rfl hanchor (Window.expand?_eq_ok hpositions).symm
  | multiWindow =>
    refine Ensures.bind (P := fun w => WellPlaced s (.multiWindow w)) ?_ fun w hw => .pure hw
    refine (Ensures.mapM (R := fun _ => Within s.sourceShape) fun _ _ => ?_).bind
      fun anchors hanchors => ?_
    · refine Window.ensures_anchor fun d hd => ?_
      have := hpos d hd
      omega
    · refine ensures_ofExcept fun w hw => ?_
      obtain ⟨positions, hpositions, rfl⟩ := MultiWindowAddressing.make_eq_ok_iff.1 hw
      refine ⟨hkind.symm, fun _ => rfl, fun _ => rfl, ?_, ?_⟩
      · exact forall_mem_of_forall₂ hanchors
      · exact (MultiWindowAddressing.expandAll?_eq_ok hpositions).symm

/-- A well placed strategy is so still when it has been moved. -/
theorem WellPlaced.ensures_perturb {a : Addressing} (h : a.WellPlaced s)
    (hsmall : ∀ d ∈ s.sourceShape, d < 2 ^ 63) :
    a.perturb.Ensures fun r => r.2.WellPlaced s := by
  rcases a with _ | w | w
  · exact .pure h
  · refine Ensures.bind (P := fun r => WellPlaced s (.window r.2)) ?_ fun r hr => .pure hr
    have hwindow : AddressingKind.window ≠ .full := by decide
    have hshape : w.shape = s.sourceShape := h.shape hwindow
    rw [WindowAddressing.perturb]
    split
    · exact .pure h
    · refine .after fun shift => ?_
      refine (ensures_ofExcept fun positions hpositions => hpositions).bind
        fun positions hpositions => .pure ?_
      refine wellPlaced_window h.kind.symm hshape (h.kernel hwindow) ?_
        (Window.expand?_eq_ok hpositions).symm
      exact Window.within_moveAnchor shift (h.within w.anchor List.mem_cons_self) (hshape ▸ hsmall)
  · refine Ensures.bind (P := fun r => WellPlaced s (.multiWindow r.2)) ?_ fun r hr => .pure hr
    have hwindows : AddressingKind.multiWindow ≠ .full := by decide
    have hshape : w.shape = s.sourceShape := h.shape hwindows
    rw [MultiWindowAddressing.perturb]
    refine (Ensures.mapM (R := fun _ => Within w.shape) fun x hx => ?_).bind
      fun anchors hanchors => ?_
    · split
      · exact .pure (h.within x hx)
      · exact .after fun shift =>
          .pure (Window.within_moveAnchor shift (h.within x hx) (hshape ▸ hsmall))
    · split
      · exact .pure h
      · refine (ensures_ofExcept fun positions hpositions => hpositions).bind
          fun positions hpositions => .pure ⟨h.kind, h.shape, h.kernel, ?_, ?_⟩
        · exact forall_mem_of_forall₂ hanchors
        · exact (MultiWindowAddressing.expandAll?_eq_ok hpositions).symm

end Addressing

end TangledPrograms
