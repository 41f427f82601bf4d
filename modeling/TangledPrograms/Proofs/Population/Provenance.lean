import TangledPrograms.Proofs.Number.Sum
import TangledPrograms.Proofs.Population.Proposal
import TangledPrograms.Proofs.Population.Streams

/-!
# Where a proposed vector comes from

A pool of vectors always leads to a proposal: one of the pool or the one that the learner has, with
some coordinates moved by noise and cut to the unit interval. The coin that decides between the two
comes first in the stream. A move changes no length, and it leaves the unit cube only if the noise is
NaN.
-/

namespace TangledPrograms

open Draw

/-- All coordinates lie in the unit interval. -/
def AtomicAction.InUnit : AtomicAction → Prop
  | .label _ => True
  | .vector v => ∀ x ∈ v, x.InUnit

def Action.InUnit : Action → Prop
  | .atomic a => a.InUnit
  | .team _ => True

namespace ActionMutation

variable {m : MutationSettings} {pool : List AtomicAction} {current : Action} {s s' : Source}
  {u v : List Binary64} {noise : Float → Prop}

/-- A pool of vectors and nothing else. -/
abbrev AllVectors (pool : List AtomicAction) : Prop := pool ≠ [] ∧ ∀ a ∈ pool, a.isVector

/-- Noise that can be drawn somewhere in the stream, from the source on. -/
def NoiseFrom (m : MutationSettings) (s : Source) (y : Float) : Prop :=
  ∃ s₁ s', s.Reaches s₁ ∧ Normal.deviate m.vectorNoise.toFloat s₁ = .ok (y, s')

theorem NoiseFrom.of_reaches {y : Float} (hy : NoiseFrom m s' y) (h : s.Reaches s') :
    NoiseFrom m s y := by
  obtain ⟨s₁, s₂, hs₁, hy⟩ := hy
  exact ⟨s₁, s₂, h.trans hs₁, hy⟩

/-- None of it is NaN. -/
def ClearNoise (m : MutationSettings) (s : Source) : Prop := ∀ y, NoiseFrom m s y → y.isNaN = false

theorem ClearNoise.of_reaches (h : ClearNoise m s) (hs : s.Reaches s') : ClearNoise m s' :=
  fun y hy => h y (hy.of_reaches hs)

/-- One coordinate is moved by noise and cut. -/
def Nudges (noise : Float → Prop) (v u : List Binary64) : Prop :=
  ∃ place y, place < v.length ∧ noise y ∧ u = v.modify place fun x => (x.add y).clampUnit

/-- Coordinates are moved one after the other, at least one of them. -/
def Moved (noise : Float → Prop) : List Binary64 → List Binary64 → Prop :=
  Relation.TransGen (Nudges noise)

/-- Where a coordinate is moved it is cut, and elsewhere it is one that was there. -/
theorem Nudges.inUnit (hnoise : ∀ y, noise y → y.isNaN = false) (h : Nudges noise v u)
    (hv : ∀ x ∈ v, x.InUnit) : ∀ x ∈ u, x.InUnit := by
  obtain ⟨place, y, -, hy, rfl⟩ := h
  intro x hx
  obtain ⟨i, hi, rfl⟩ := List.getElem_of_mem hx
  rw [List.length_modify] at hi
  rw [List.getElem_modify]
  split
  · exact (hv _ (List.getElem_mem hi)).move (hnoise y hy)
  · exact hv _ (List.getElem_mem hi)

theorem Moved.mono {noise' : Float → Prop} (h : Moved noise v u) (hnoise : ∀ y, noise y → noise' y) :
    Moved noise' v u := by
  have hnudges : Nudges noise ≤ Nudges noise' := by
    rintro v u ⟨place, y, hplace, hy, hu⟩
    exact ⟨place, y, hplace, hnoise y hy, hu⟩
  exact Relation.TransGen.mono hnudges v u h

theorem Moved.length_eq (h : Moved noise v u) : u.length = v.length := by
  have hnudge : ∀ {v u}, Nudges noise v u → u.length = v.length := by
    rintro v _ ⟨place, y, -, -, rfl⟩
    exact List.length_modify ..
  induction h with
  | single hstep => exact hnudge hstep
  | tail _ hstep ih => exact (hnudge hstep).trans ih

theorem Moved.inUnit (hnoise : ∀ y, noise y → y.isNaN = false) (h : Moved noise v u)
    (hv : ∀ x ∈ v, x.InUnit) : ∀ x ∈ u, x.InUnit := by
  induction h with
  | single hstep => exact hstep.inUnit hnoise hv
  | tail _ hstep ih => exact hstep.inUnit hnoise ih

theorem ensuresFrom_nudge (v : List Binary64) :
    (nudge m v).EnsuresFrom s (Nudges (NoiseFrom m s) v) := by
  refine ((Advances.below _ _).ensuresFrom (ensures_below _ _) s).bind fun place hplace => ?_
  refine ((Advances.deviate _).ensuresFrom_self s).bind fun y hy => ?_
  exact .pure ⟨place, y, hplace, hy, rfl⟩

theorem ensuresFrom_nudgeRepeatedly (moves : ℕ) (v : List Binary64) :
    (nudgeRepeatedly m moves v).EnsuresFrom s (Moved (NoiseFrom m s) v) := by
  induction moves generalizing v with
  | zero => exact fun _ _ _ _ h => by cases h
  | succ moves ih =>
    refine (ensuresFrom_nudge v).bind fun u hu => (Advances.coin _).thenFrom fun shown => ?_
    split
    · exact (ih u).mono fun w hw => .head hu hw
    · exact .pure (.single hu)

theorem ensuresFrom_nudgeAll (v : List Binary64) :
    (nudgeAll m v).EnsuresFrom s (Moved (NoiseFrom m s) v) :=
  Advances.remaining.thenFrom fun _ => ensuresFrom_nudgeRepeatedly _ v

/-- How a vector is proposed from a pool of vectors. If the coin shows a swap, it is one of the pool, as
it is or moved. Else the learner's own vector is moved, or one of the pool if the learner has none; an
empty vector has nothing to move. -/
inductive VectorProposed (m : MutationSettings) (pool : List AtomicAction) (current : Action)
    (s : Source) (u : List Binary64) : Prop where
  | swapped {v : List Binary64} {s' : Source} (hswap : coin m.swapVector.toFloat s = .ok (true, s'))
      (hmem : .vector v ∈ pool) (hmoved : Moved (NoiseFrom m s) v u ∨ u = v)
  | kept {v : List Binary64} {s' : Source} (hswap : coin m.swapVector.toFloat s = .ok (false, s'))
      (hcurrent : current = .atomic (.vector v))
      (hmoved : Moved (NoiseFrom m s) v u ∨ u = v ∧ v = [])
  | fresh {v : List Binary64} {s' : Source} (hswap : coin m.swapVector.toFloat s = .ok (false, s'))
      (hcurrent : ∀ w, current ≠ .atomic (.vector w)) (hmem : .vector v ∈ pool)
      (hmoved : Moved (NoiseFrom m s) v u ∨ u = v ∧ v = [])

/-- The vector to start from is the one that is there or one of the pool. -/
theorem ensures_baseVector (hpool : AllVectors pool) (swap : Bool) (current : Action) :
    (baseVector pool swap current).Ensures fun o => ∃ v, o = some v ∧
      ((swap = false ∧ current = .atomic (.vector v)) ∨
        (swap = true ∨ ∀ w, current ≠ .atomic (.vector w)) ∧ .vector v ∈ pool) := by
  have hdrawn := (yields_vectorFrom hpool.1 hpool.2).ensures
  cases swap with
  | true => exact hdrawn.mono fun o ⟨v, ho, hv⟩ => ⟨v, ho, .inr ⟨.inl rfl, hv⟩⟩
  | false =>
    rcases current with (n | u) | t
    · exact hdrawn.mono fun o ⟨v, ho, hv⟩ => ⟨v, ho, .inr ⟨.inr (by simp), hv⟩⟩
    · exact .pure ⟨u, rfl, .inl ⟨rfl, rfl⟩⟩
    · exact hdrawn.mono fun o ⟨v, ho, hv⟩ => ⟨v, ho, .inr ⟨.inr (by simp), hv⟩⟩

/-- From the vector to start from, a vector is proposed in any case. -/
theorem ensuresFrom_moved (move : Bool) (v : List Binary64) :
    (if move && !v.isEmpty then do pure (some (.vector (← nudgeAll m v)))
      else pure (some (.vector v)) : Draw (Option AtomicAction)).EnsuresFrom s fun o =>
        ∃ u, o = some (.vector u) ∧
          (Moved (NoiseFrom m s) v u ∨ u = v ∧ (move = true → v = [])) := by
  split
  · exact (ensuresFrom_nudgeAll v).bind fun u hu => .pure ⟨u, rfl, .inl hu⟩
  · rename_i hstays
    refine .pure ⟨v, rfl, .inr ⟨rfl, fun hmove => ?_⟩⟩
    simpa [hmove] using hstays

theorem vectorProposed_of_proposeVector (hpool : AllVectors pool) {o : Option AtomicAction}
    (h : proposeVector m pool current s = .ok (o, s')) :
    ∃ u, o = some (.vector u) ∧ VectorProposed m pool current s u := by
  obtain ⟨swap, s₁, hswap, h⟩ := exists_of_bind h
  obtain ⟨_, s₂, hbase, h⟩ := exists_of_bind h
  have hs₂ := (Advances.coin _ _ _ _ hswap).trans (advances_baseVector swap _ _ _ hbase)
  obtain ⟨v, rfl, hv⟩ := ensures_baseVector hpool swap current _ _ _ hbase
  cases swap with
  | true =>
    obtain ⟨move, s₃, hmove, h⟩ := exists_of_bind h
    have hs₃ := hs₂.trans (Advances.coin _ _ _ _ hmove)
    obtain ⟨⟨u, hu, hmoved⟩, -⟩ := ensuresFrom_moved move v _ _ _ hs₃ h
    obtain ⟨hfalse, -⟩ | ⟨-, hmem⟩ := hv
    · cases hfalse
    · exact ⟨u, hu, .swapped hswap hmem (hmoved.imp_right And.left)⟩
  | false =>
    obtain ⟨⟨u, hu, hmoved⟩, -⟩ := ensuresFrom_moved true v _ _ _ hs₂ h
    have hmoved' := hmoved.imp_right (And.imp_right fun hnil => hnil rfl)
    obtain ⟨-, hcurrent⟩ | ⟨hnone, hmem⟩ := hv
    · exact ⟨u, hu, .kept hswap hcurrent hmoved'⟩
    · exact ⟨u, hu, .fresh hswap (hnone.resolve_left nofun) hmem hmoved'⟩

end ActionMutation

end TangledPrograms
