import TangledPrograms.Proofs.Population.Perturbation

/-!
# What is proposed as an action

A proposal asks for no value from an empty range, whatever the pool, and a proposed team is one of the
candidates.
-/

namespace TangledPrograms.ActionMutation

open Draw

variable {m : MutationSettings} {pool : List AtomicAction} {current : Action} {v : List Binary64}

theorem yields_moved (hv : v ≠ []) (moves : ℕ) :
    (nudgeRepeatedly m moves v).Yields fun _ => True := by
  induction moves generalizing v with
  | zero => exact yields_starved
  | succ moves ih =>
    refine (yields_nudge hv).bind fun v hv => ?_
    refine (yields_toss _).bind fun more _ => ?_
    split
    · exact ih hv
    · exact .pure trivial

theorem yields_someVector (pool : List AtomicAction) : (vectorFrom pool).Yields fun _ => True := by
  refine (yields_chosen pool).bind fun o _ => ?_
  split <;> exact .pure trivial

theorem yields_start (pool : List AtomicAction) (swap : Bool) (current : Action) :
    (baseVector pool swap current).Yields fun _ => True := by
  simp only [baseVector]
  split
  · exact .pure trivial
  · exact yields_someVector pool

theorem yields_vector (m : MutationSettings) (pool : List AtomicAction) (current : Action) :
    (proposeVector m pool current).Yields fun _ => True := by
  refine (yields_toss _).bind fun swap _ => ?_
  refine (yields_start pool swap current).bind fun o _ => ?_
  cases o with
  | none => exact .pure trivial
  | some v =>
    have hlast : ∀ move : Bool, (if move && !v.isEmpty then do
        pure (some (.vector (← nudgeAll m v))) else pure (some (.vector v)) :
        Draw (Option AtomicAction)).Yields fun _ => True := by
      intro move
      split
      · rename_i hmove
        have hv : v ≠ [] := by
          rintro rfl
          simp at hmove
        exact (yields_remaining.bind fun _ _ => yields_moved hv _).bind fun _ _ => .pure trivial
      · exact .pure trivial
    dsimp only
    split
    · exact (yields_toss _).bind fun move _ => hlast move
    · exact hlast true

theorem yields_atomic (m : MutationSettings) (pool : List AtomicAction) (current : Action) :
    (proposeAtomic m pool current).Yields fun _ => True := by
  simp only [proposeAtomic]
  split
  · exact yields_vector m pool current
  · exact (yields_chosen _).mono fun _ _ => trivial

theorem yields_propose (p : Population) (current : Action) (parent : Option TeamId)
    (pool : List AtomicAction) :
    (propose p current parent pool).Yields fun o => ∀ a ∈ o, ∀ t, a.target? = some t →
      t ∈ candidates p current parent := by
  refine (yields_toss _).bind fun atomic _ => ?_
  split
  · refine (yields_atomic _ pool current).bind fun o _ => .pure fun a ha t ht => ?_
    obtain ⟨b, -, rfl⟩ := Option.map_eq_some_iff.1 ha
    cases ht
  · refine (yields_chosen _).bind fun o ho => .pure fun a ha t ht => ?_
    obtain ⟨u, hu, rfl⟩ := Option.map_eq_some_iff.1 ha
    cases ht
    exact ho t hu

/-- Candidates are live. -/
theorem exists_candidate {p : Population} {parent : Option TeamId} {t : TeamId}
    (h : t ∈ candidates p current parent) : ∃ team, p.teams.find? t = some team := by
  obtain ⟨⟨u, team⟩, hmem, rfl⟩ := List.mem_map.1 (List.mem_filter.1 h).1
  exact ⟨team, OrderedMap.find?_eq_some_iff.2 hmem⟩

/-- No candidate is the parent. -/
theorem ne_parent_of_candidate {p : Population} {parent : Option TeamId} {t : TeamId}
    (h : t ∈ candidates p current parent) : some t ≠ parent := by
  have hmem := (List.mem_filter.1 h).2
  rw [Bool.and_eq_true] at hmem
  simpa using hmem.2

end TangledPrograms.ActionMutation
