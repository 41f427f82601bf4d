import TangledPrograms.Population.ActionMutation
import TangledPrograms.Population.Creation
import TangledPrograms.Proofs.Random.Chance

/-!
# When the mutation of an action ends

No count bounds the moves of a vector: they go on while the coin shows true. With a coin that never
shows false they go on for ever, and a call of which every path leads into them has no answer on any
stream. Such a call is trapped; every other call ends on all streams that begin with some words.
-/

namespace TangledPrograms

open Draw

namespace ActionMutation

/-- The vectors that the moves may start from: the one that the learner has, one of the pool that it
is swapped for, or one of the pool for a learner that has none. -/
inductive Start (m : MutationSettings) (pool : List AtomicAction) (current : Action) :
    List Binary64 → Prop where
  | kept {v} (hswap : m.swapVector.toFloat < 1.0) (hcurrent : current = .atomic (.vector v)) :
    Start m pool current v
  | swapped {v} (hswap : 0.0 < m.swapVector.toFloat) (hmem : .vector v ∈ pool) :
    Start m pool current v
  | fresh {v} (hswap : m.swapVector.toFloat < 1.0)
    (hcurrent : ∀ u, current ≠ .atomic (.vector u)) (hmem : .vector v ∈ pool) :
    Start m pool current v

/-- An atomic action is proposed in any case, it is a vector made by moves, the coin that would end
the moves never shows false, and there is always a coordinate to move. -/
structure Traps (p : Population) (current : Action) (parent : Option TeamId)
    (pool : List AtomicAction) : Prop where
  atomic : p.settings.mutation.actionAtomic.toFloat < 1.0 → candidates p current parent = []
  nonempty : pool ≠ []
  vectors : ∀ a ∈ pool, a.isVector
  certain : 1.0 ≤ p.settings.mutation.changeVector.toFloat
  starts : ∀ v, Start p.settings.mutation pool current v → v ≠ []

variable {m : MutationSettings} {pool : List AtomicAction} {current : Action} {v : List Binary64}

theorem exists_vector {a : AtomicAction} (h : a.isVector) : ∃ v, a = .vector v := by
  cases a with
  | label n => cases h
  | vector v => exact ⟨v, rfl⟩

theorem proposesVector_iff :
    (!pool.isEmpty && pool.all AtomicAction.isVector) = true ↔
      pool ≠ [] ∧ ∀ a ∈ pool, a.isVector := by
  simp

theorem proposeAtomic_of_vectors (hne : pool ≠ []) (hall : ∀ a ∈ pool, a.isVector) :
    proposeAtomic m pool current = proposeVector m pool current :=
  if_pos (proposesVector_iff.2 ⟨hne, hall⟩)

section spin

variable (hm : m.check = .ok ()) (hchange : 1.0 ≤ m.changeVector.toFloat)

theorem yields_nudge (hv : v ≠ []) : (nudge m v).Yields (· ≠ []) := by
  refine (yields_below (mt List.length_eq_zero_iff.1 hv)).bind fun i _ => ?_
  refine (yields_deviate _).bind fun x _ => .pure ?_
  simpa [← List.length_eq_zero_iff] using hv

include hm hchange

theorem yields_coin_change : (coin m.changeVector.toFloat).Yields (· = true) := by
  have hp := m.isProbability_rate hm .changeVector
  refine (yields_coin hp).mono fun b hb => ?_
  cases b with
  | true => rfl
  | false =>
    exact absurd hb ((Number.not_lt_iff (isFinite_of_isProbability hp) (by decide)).2 hchange)

/-- Each round leaves a vector that is not empty and ends with a coin that shows true. -/
theorem yields_nudgeRepeatedly (hv : v ≠ []) (moves : ℕ) :
    (nudgeRepeatedly m moves v).Yields fun _ => False := by
  induction moves generalizing v with
  | zero => exact yields_starved
  | succ moves ih =>
    refine (yields_nudge hv).bind fun v hv => ?_
    refine (yields_coin_change hm hchange).bind fun b hb => ?_
    subst hb
    exact ih hv

theorem yields_nudgeAll (hv : v ≠ []) : (nudgeAll m v).Yields fun _ => False :=
  yields_remaining.bind fun _ _ => yields_nudgeRepeatedly hm hchange hv _

omit hm hchange in
theorem yields_vectorFrom (hne : pool ≠ []) (hall : ∀ a ∈ pool, a.isVector) :
    (vectorFrom pool).Yields fun o => ∃ v, o = some v ∧ .vector v ∈ pool := by
  refine (yields_choose hne).bind ?_
  rintro _ ⟨a, ha, rfl⟩
  obtain ⟨v, rfl⟩ := exists_vector (hall a ha)
  exact .pure ⟨v, rfl, ha⟩

omit hm hchange in
theorem yields_baseVector {swap : Bool} (hne : pool ≠ []) (hall : ∀ a ∈ pool, a.isVector)
    (hswap : if swap then 0.0 < m.swapVector.toFloat else m.swapVector.toFloat < 1.0) :
    (baseVector pool swap current).Yields fun o => ∃ v, o = some v ∧ Start m pool current v := by
  have hdrawn := yields_vectorFrom hne hall
  cases swap with
  | true => exact hdrawn.mono fun _ ⟨v, ho, hv⟩ => ⟨v, ho, .swapped hswap hv⟩
  | false =>
    rcases current with (n | v) | t
    · exact hdrawn.mono fun _ ⟨v, ho, hv⟩ => ⟨v, ho, .fresh hswap (by simp) hv⟩
    · exact .pure ⟨v, rfl, .kept hswap rfl⟩
    · exact hdrawn.mono fun _ ⟨v, ho, hv⟩ => ⟨v, ho, .fresh hswap (by simp) hv⟩

theorem yields_proposeVector (hne : pool ≠ []) (hall : ∀ a ∈ pool, a.isVector)
    (hstarts : ∀ v, Start m pool current v → v ≠ []) :
    (proposeVector m pool current).Yields fun _ => False := by
  refine (yields_coin (m.isProbability_rate hm .swapVector)).bind fun swap hswap => ?_
  refine (yields_baseVector hne hall hswap).bind ?_
  rintro _ ⟨v, rfl, hstart⟩
  have hv := hstarts v hstart
  have hmoves : (do pure (some (.vector (← nudgeAll m v))) : Draw (Option AtomicAction)).Yields
      fun _ => False := (yields_nudgeAll hm hchange hv).bind fun _ h => h.elim
  have hlast : (if true && !v.isEmpty then do pure (some (.vector (← nudgeAll m v)))
      else pure (some (.vector v)) : Draw (Option AtomicAction)).Yields fun _ => False := by
    rwa [if_pos (by simpa using hv)]
  cases swap with
  | false => exact hlast
  | true =>
    refine (yields_coin_change hm hchange).bind fun move hmove => ?_
    subst hmove
    exact hlast

end spin

variable {p : Population} {parent : Option TeamId}

/-- Where no coin ends the moves, a vector is a trap together with the pool that holds it alone. -/
theorem traps_vector (hatomic : ¬ p.settings.mutation.actionAtomic.toFloat < 1.0)
    (hcertain : 1.0 ≤ p.settings.mutation.changeVector.toFloat) (hv : v ≠ [])
    (parent : Option TeamId) : Traps p (.atomic (.vector v)) parent [.vector v] where
  atomic h := absurd h hatomic
  nonempty := by simp
  vectors := by simp [AtomicAction.isVector]
  certain := hcertain
  starts u hstart := by
    cases hstart with
    | kept _ hcurrent =>
      cases hcurrent
      exact hv
    | swapped _ hmem =>
      cases List.mem_singleton.1 hmem
      exact hv
    | fresh _ hcurrent _ => exact absurd rfl (hcurrent v)

theorem Traps.yields_propose (hm : p.settings.mutation.check = .ok ())
    (h : Traps p current parent pool) :
    (propose p current parent pool).Yields fun _ => False := by
  have hatomic := yields_proposeVector hm h.certain h.nonempty h.vectors h.starts
  rw [← proposeAtomic_of_vectors h.nonempty h.vectors] at hatomic
  refine (yields_coin (MutationSettings.isProbability_rate hm .actionAtomic)).bind fun b hb => ?_
  have hbranch : (b || (candidates p current parent).isEmpty) = true := by
    cases b with
    | true => rfl
    | false => simpa using h.atomic hb
  rw [if_pos hbranch]
  exact hatomic.bind fun _ h => h.elim

section finish

variable (hm : m.check = .ok ()) (hpool : pool.length < UInt64.size)

theorem canAnswer_nudge (hv : v ≠ []) : (nudge m v).CanAnswer :=
  (answers_below_zero (mt List.length_eq_zero_iff.1 hv)).canAnswer
    ((canAnswer_deviate _).bind fun _ => .pure _)

include hm

theorem exists_start (hne : pool ≠ []) (hall : ∀ a ∈ pool, a.isVector) :
    ∃ v, Start m pool current v := by
  obtain ⟨a, ha⟩ := List.exists_mem_of_ne_nil pool hne
  obtain ⟨v, rfl⟩ := exists_vector (hall a ha)
  rcases pos_or_lt_one (m.isProbability_rate hm .swapVector) with hswap | hswap
  · exact ⟨v, .swapped hswap ha⟩
  · rcases current with (n | u) | t
    · exact ⟨v, .fresh hswap (by simp) ha⟩
    · exact ⟨u, .kept hswap rfl⟩
    · exact ⟨v, .fresh hswap (by simp) ha⟩

/-- One round is made and the coin shows false. -/
theorem canAnswer_nudgeAll (hchange : m.changeVector.toFloat < 1.0) (hv : v ≠ []) :
    (nudgeAll m v).CanAnswer := by
  obtain ⟨words, u, hnudge⟩ := canAnswer_nudge (m := m) hv
  have hcoin := answers_coin_false (m.isProbability_rate hm .changeVector) hchange
  exact ⟨_, u, .of_remaining fun n => hnudge.bind (hcoin.bind (.pure u))⟩

include hpool

omit hm in
theorem exists_answers_vectorFrom (hmem : .vector v ∈ pool) :
    ∃ words, (vectorFrom pool).Answers words (some v) := by
  obtain ⟨x, hx⟩ := exists_answers_choose_mem hmem hpool
  exact ⟨_, hx.bind (.pure (some v))⟩

theorem Start.answers (h : Start m pool current v) : ∃ swap words more,
    (coin m.swapVector.toFloat).Answers words swap ∧
    (baseVector pool swap current).Answers more (some v) := by
  have hp := m.isProbability_rate hm .swapVector
  cases h with
  | kept hswap hcurrent =>
    subst hcurrent
    exact ⟨false, _, [], answers_coin_false hp hswap, .pure (some v)⟩
  | swapped hswap hmem =>
    obtain ⟨more, hmore⟩ := exists_answers_vectorFrom hpool hmem
    exact ⟨true, _, more, answers_coin_true hswap, hmore⟩
  | fresh hswap hcurrent hmem =>
    obtain ⟨more, hmore⟩ := exists_answers_vectorFrom hpool hmem
    refine ⟨false, _, more, answers_coin_false hp hswap, ?_⟩
    rcases current with (n | u) | t
    · exact hmore
    · exact absurd rfl (hcurrent u)
    · exact hmore

/-- An empty vector is not moved, and a coin that can show false ends the moves. -/
theorem Start.canAnswer_proposeVector (hstart : Start m pool current v)
    (h : v = [] ∨ m.changeVector.toFloat < 1.0) : (proposeVector m pool current).CanAnswer := by
  obtain ⟨swap, words, more, hswap, hbase⟩ := hstart.answers hm hpool
  have hlast : ∀ move : Bool, (if move && !v.isEmpty then do
      pure (some (.vector (← nudgeAll m v))) else pure (some (.vector v)) :
        Draw (Option AtomicAction)).CanAnswer := by
    intro move
    split
    · have hv : v ≠ [] := by
        rintro rfl
        simp_all
      exact (canAnswer_nudgeAll hm (h.resolve_left hv) hv).bind fun _ => .pure _
    · exact .pure _
  refine hswap.canAnswer (hbase.canAnswer ?_)
  cases swap with
  | false => exact hlast true
  | true => exact (canAnswer_coin _).bind hlast

end finish

theorem canAnswer_propose (hm : p.settings.mutation.check = .ok ())
    (hpool : pool.length < UInt64.size) (h : ¬ Traps p current parent pool) :
    (propose p current parent pool).CanAnswer := by
  by_contra hstuck
  have hatomic : ¬ (proposeAtomic p.settings.mutation pool current).CanAnswer := by
    intro hatomic
    refine hstuck ((canAnswer_coin _).bind fun b => ?_)
    split
    · exact hatomic.bind fun _ => .pure _
    · exact (canAnswer_choose _).bind fun _ => .pure _
  obtain ⟨hne, hall⟩ : pool ≠ [] ∧ ∀ a ∈ pool, a.isVector := by
    by_contra hvectors
    apply hatomic
    rw [proposeAtomic, if_neg (mt proposesVector_iff.1 hvectors)]
    exact canAnswer_choose _
  rw [proposeAtomic_of_vectors hne hall] at hatomic
  apply h
  constructor
  case atomic =>
    intro hcoin
    by_contra hteams
    have hfalse := answers_coin_false (MutationSettings.isProbability_rate hm .actionAtomic) hcoin
    refine hstuck (hfalse.canAnswer ?_)
    rw [if_neg (by simpa using hteams)]
    exact (canAnswer_choose _).bind fun _ => .pure _
  case nonempty => exact hne
  case vectors => exact hall
  case certain =>
    obtain ⟨v, hstart⟩ : ∃ v, Start p.settings.mutation pool current v := exists_start hm hne hall
    have hfinite := isFinite_of_isProbability (MutationSettings.isProbability_rate hm .changeVector)
    refine (Number.not_lt_iff hfinite (by decide)).1 fun hchange => ?_
    exact hatomic (hstart.canAnswer_proposeVector hm hpool (.inr hchange))
  case starts =>
    intro v hstart hv
    exact hatomic (hstart.canAnswer_proposeVector hm hpool (.inl hv))

end ActionMutation

namespace Population

/-- The learner is live, and its action, the parent and the pool are a trap. -/
def Trapped (p : Population) (l : LearnerId) (parent : Option TeamId) (pool : List AtomicAction) :
    Prop :=
  ∃ learner, p.learners.find? l = some learner ∧
    ActionMutation.Traps p learner.action parent pool

variable {p : Population} {l : LearnerId} {parent : Option TeamId} {pool : List AtomicAction}

theorem Trapped.starves (hm : p.settings.mutation.check = .ok ()) (h : p.Trapped l parent pool)
    (s : Source) : p.mutateAction l parent pool s = .error .starved := by
  obtain ⟨learner, hfind, htraps⟩ := h
  have hyields : (p.mutateAction l parent pool).Yields fun _ => False := by
    rw [mutateAction, hfind]
    exact (htraps.yields_propose hm).bind fun _ h => h.elim
  exact hyields.starves s

theorem canAnswer_mutateAction (hm : p.settings.mutation.check = .ok ())
    (hpool : pool.length < UInt64.size) (h : ¬ p.Trapped l parent pool) :
    (p.mutateAction l parent pool).CanAnswer := by
  rw [mutateAction]
  cases hfind : p.learners.find? l with
  | none => exact .pure _
  | some learner =>
    have htraps : ¬ ActionMutation.Traps p learner.action parent pool :=
      fun htraps => h ⟨learner, hfind, htraps⟩
    refine (ActionMutation.canAnswer_propose hm hpool htraps).bind fun o => ?_
    split
    · exact .pure _
    · split
      · exact .pure _
      · cases p.rewire l _ <;> exact .pure _

/-- With accepted settings a call ends on all streams that begin with some words exactly if it is
not trapped, and goes on for ever on every stream exactly if it is. -/
theorem mutateAction_ends_iff (hs : p.settings.check = .ok ()) (hpool : pool.length < UInt64.size) :
    ((p.mutateAction l parent pool).CanAnswer ↔ ¬ p.Trapped l parent pool) ∧
      ((∀ s, p.mutateAction l parent pool s = .error .starved) ↔ p.Trapped l parent pool) := by
  have hm := Settings.check_mutation hs
  have hcan : ¬ p.Trapped l parent pool → (p.mutateAction l parent pool).CanAnswer :=
    canAnswer_mutateAction hm hpool
  refine ⟨⟨fun h htrapped => ?_, hcan⟩, ⟨fun h => ?_, fun h s => h.starves hm s⟩⟩
  · obtain ⟨s, hs⟩ := h.exists_ne_starved
    exact hs (htrapped.starves hm s)
  · by_contra htrapped
    obtain ⟨s, hs⟩ := (hcan htrapped).exists_ne_starved
    exact hs (h s)

def vectorHolder (m : MutationSettings) : Population :=
  ((⟨{ mutation := m }, .ofSettings {}, .fresh, .empty, .empty⟩ : Population).addLearnerWith
    ⟨⟨0⟩, [⟨1, 0, 0, 0, 0, 0⟩]⟩ (.atomic (.vector [0.5])) .full 0).population

theorem vectorHolder_ends : (vectorHolder {}).settings.check = .ok () ∧
    ((vectorHolder {}).mutateAction ⟨0⟩ none [.vector [0.5]]).CanAnswer := by
  have hs : (vectorHolder {}).settings.check = .ok () := by decide +kernel
  refine ⟨hs, (mutateAction_ends_iff hs (by decide)).1.2 ?_⟩
  rintro ⟨learner, -, htraps⟩
  exact absurd htraps.certain (by decide)

/-- The swap coin never shows true and the others never show false. -/
def unending : MutationSettings :=
  { actionAtomic := 1.0, swapVector := 0.0, changeVector := 1.0, vectorNoise := 0.0
    maxChangeAttempts := 1 }

theorem unending_goes_on : (vectorHolder unending).settings.check = .ok () ∧
    ∀ s, (vectorHolder unending).mutateAction ⟨0⟩ none [.vector [0.5]] s = .error .starved := by
  have hs : (vectorHolder unending).settings.check = .ok () := by decide +kernel
  have htraps : ActionMutation.Traps (vectorHolder unending) (.atomic (.vector [0.5])) none
      [.vector [0.5]] := ActionMutation.traps_vector (by decide) (by decide) (by decide) none
  exact ⟨hs, Trapped.starves (Settings.check_mutation hs) ⟨_, rfl, htraps⟩⟩

end Population

end TangledPrograms
