import TangledPrograms.Proofs.Program.Passes

/-!
# Which rates let a program change

A program changes if one of the four operators can fire and finds a place for its edit. The edits of a
pass are tried in turn, each on what the ones before it have left, so that the first that can fire still
finds the instructions as they were. If no operator can fire, no mutation of any program reports a
change, however many passes it makes.
-/

namespace TangledPrograms

open Draw

/-- The coin of one of the operators can show true. -/
def InstructionRates.Fire (rates : InstructionRates) : Prop :=
  CanShow rates.delete true ∨ CanShow rates.change true ∨ CanShow rates.swap true ∨
    CanShow rates.add true

namespace Program

variable {rate : Float} {rates : InstructionRates} {r : InstructionRanges} {m : MutationSettings}
  {code next : List Instruction}

section idle

/-- An edit that waits for a coin which never shows true. -/
theorem ensures_untouched (h : ¬ CanShow rate true) (x : Draw Change) (code : List Instruction) :
    (do if ← coin rate then x else pure ⟨false, code⟩ : Draw Change).Ensures
      (·.changed = false) := by
  refine (spans_coin rate).sound.bind fun shown hshown => ?_
  cases shown with
  | false => exact .pure rfl
  | true => exact absurd hshown h

/-- The same, where the edit is only tried if there is a place for it. -/
theorem ensures_idle (h : ¬ CanShow rate true) (placeless : Prop) [Decidable placeless]
    (x : Draw Change) (code : List Instruction) :
    (if placeless then pure ⟨false, code⟩
      else do if ← coin rate then x else pure ⟨false, code⟩ : Draw Change).Ensures
        (·.changed = false) := by
  split
  · exact .pure rfl
  · exact ensures_untouched h x code

theorem ensures_pass_idle (h : ¬ rates.Fire) (code : List Instruction) :
    (pass rates r code).Ensures (·.changed = false) := by
  simp only [InstructionRates.Fire, not_or] at h
  obtain ⟨hdelete, hchange, hswap, hadd⟩ := h
  refine (ensures_idle hdelete (code.length ≤ 1) _ code).bind fun deleted hdeleted => ?_
  refine (ensures_untouched hchange (changeField r deleted.code) _).bind fun altered haltered => ?_
  refine (ensures_idle hswap (altered.code.length ≤ 1) _ _).bind fun swapped hswapped => ?_
  refine (ensures_idle hadd (r.maxLength ≤ swapped.code.length) _ _).bind fun added hadded => ?_
  refine .pure ?_
  simp [hdeleted, haltered, hswapped, hadded]

theorem ensures_mutateInstructions_idle (h : ¬ rates.Fire) (attempts : ℕ) :
    ∀ code, (mutateInstructions rates r attempts code).Ensures (·.changed = false) := by
  induction attempts with
  | zero => exact fun _ => .pure rfl
  | succ attempts ih =>
    intro code
    refine (ensures_pass_idle h code).bind fun c hc => ?_
    rw [if_neg (by simp [hc])]
    exact ih c.code

theorem ensures_seekDistinct_idle (h : ¬ rates.Fire) (corpus : UniquenessCorpus) (rounds : ℕ) :
    ∀ attempt p, (seekDistinct rates r m corpus false attempt rounds p).Ensures
      fun o => o.1.changed = false := by
  induction rounds with
  | zero => exact fun _ _ => .pure rfl
  | succ rounds ih =>
    intro attempt p
    refine (ensures_mutateInstructions_idle h _ p.code).bind fun c hc => ?_
    rw [hc]
    exact ih _ _

theorem ensures_repeatPasses_idle (h : ¬ rates.Fire) (extra : ℕ) :
    ∀ code, (repeatPasses rates r m 0 extra code).Ensures fun o => o.1 = 0 := by
  induction extra with
  | zero => exact fun _ => .pure rfl
  | succ extra ih =>
    refine fun code => .after fun shown => ?_
    cases shown with
    | false => exact .pure rfl
    | true =>
      refine (ensures_mutateInstructions_idle h _ code).bind fun c hc => ?_
      rw [if_neg (by simp [hc])]
      exact ih c.code

/-- Without an operator that can fire no mutation of a program reports a change. -/
theorem ensures_mutate_idle (h : ¬ (InstructionRates.ofSettings m).Fire) (p : Program)
    (r : InstructionRanges) (corpus : Option UniquenessCorpus) :
    (p.mutate m r corpus).Ensures fun o => o.1.changed = false := by
  cases corpus with
  | some corpus => exact ensures_seekDistinct_idle h corpus _ _ p
  | none =>
    refine (ensures_mutateInstructions_idle h _ p.code).bind fun first hfirst => ?_
    rw [if_neg (by simp [hfirst])]
    refine (ensures_repeatPasses_idle h _ first.code).bind fun o ho => .pure ?_
    rw [if_pos ho]
    rfl

end idle

section fire

/-- What a pass has come to after some of its operators: an instruction is left, and there is a change
unless the code is the same and no operator so far can fire. -/
structure Underway (code : List Instruction) (fired : Prop) (changed : Bool)
    (next : List Instruction) : Prop where
  ne_nil : next ≠ []
  progress : changed = true ∨ next = code ∧ ¬ fired

/-- One more operator, which can always be got over, and which can make its edit of the code if it can
fire. -/
theorem Underway.advance {fired : Prop} {changed : Bool} {op : List Instruction → Draw Change}
    (h : Underway code fired changed next) (hcan : (op next).CanAnswer)
    (hof : (op next).Ensures (Change.Of next))
    (hedit : CanShow rate true → (op code).May (·.changed = true)) :
    (op next).May fun c => Underway code (fired ∨ CanShow rate true) (changed || c.changed) c.code := by
  by_cases hfires : changed = false ∧ CanShow rate true
  · obtain ⟨rfl, hshow⟩ := hfires
    obtain ⟨rfl, -⟩ := h.progress.resolve_left (by decide)
    refine ((hedit hshow).and_ensures hof).mono fun c ⟨hc, hnext⟩ => ⟨mt hnext.nil h.ne_nil, ?_⟩
    exact .inl hc
  · refine (hcan.may hof).mono fun c hc => ⟨mt hc.nil h.ne_nil, ?_⟩
    by_cases hchanged : (changed || c.changed) = true
    · exact .inl hchanged
    · obtain ⟨hbefore, hnow⟩ := Bool.or_eq_false_iff.1 (Bool.eq_false_iff.2 hchanged)
      obtain ⟨rfl, hnone⟩ := h.progress.resolve_left (by simp [hbefore])
      exact .inr ⟨hc.same hnow, not_or.2 ⟨hnone, fun hshow => hfires ⟨hbefore, hshow⟩⟩⟩

/-- Code on which every operator finds a place for its edit. -/
structure Editable (r : InstructionRanges) (code : List Instruction) : Prop where
  room : code.length < r.maxLength
  fits : code.length < UInt64.size
  swaps : ∃ next, Swaps code next

theorem Editable.one_lt (h : Editable r code) : 1 < code.length := by
  obtain ⟨next, a, b, i, j, hi, hj, hij, -⟩ := h.swaps
  have ha := (List.getElem?_eq_some_iff.1 hi).1
  have hb := (List.getElem?_eq_some_iff.1 hj).1
  have hab : a ≠ b := by
    rintro rfl
    exact hij (Option.some.inj (hi.symm.trans hj))
  omega

theorem Editable.ne_nil (h : Editable r code) : code ≠ [] := by
  rintro rfl
  exact absurd h.one_lt (by decide)

/-- A flag can always be turned. -/
theorem exists_alters (hcode : code ≠ []) : ∃ next, Alters r code next := by
  obtain ⟨i, rest, rfl⟩ := List.exists_cons_of_ne_nil hcode
  by_cases hzero : i.mode = 0
  · have hone : (1 : UInt32) < 2 := by decide
    refine ⟨_, 0, i, .mode, 1, rfl, hone, ?_, rfl⟩
    change 1 ≠ i.mode
    rw [hzero]
    decide
  · have hpos : (0 : UInt32) < 2 := by decide
    exact ⟨_, 0, i, .mode, 0, rfl, hpos, fun h => hzero h.symm, rfl⟩

theorem exists_inserts : ∃ next, Inserts r code next := by
  refine ⟨_, 0, Nat.zero_le _, ⟨0, 0, 0, 0, 0, 0⟩, fun f => ?_, rfl⟩
  have hpos : (0 : UInt32) < max (f.range r) 1 := by
    rw [UInt32.lt_iff_toNat_lt, toNat_max_one]
    exact Nat.lt_of_lt_of_le Nat.one_pos (Nat.le_max_right ..)
  cases f <;> exact hpos

theorem may_of_edits {tried fails : Prop} {edits : List Instruction → Prop} {op : Draw Change}
    (h : op.Spans (Operated rate tried edits fails code)) (htried : tried)
    (hedits : ∃ next, edits next) (hshow : CanShow rate true) : op.May (·.changed = true) := by
  obtain ⟨next, hnext⟩ := hedits
  exact h.may (.edited htried hshow hnext) rfl

/-- If an operator can fire, a pass can change code on which all find a place. -/
theorem may_pass (hcode : Editable r code) (h : rates.Fire) :
    (pass rates r code).May (·.changed = true) := by
  have hstart : Underway code False false code := ⟨hcode.ne_nil, .inr ⟨rfl, not_false⟩⟩
  have hdeletes : ∃ next, Deletes code next := ⟨_, 0, by have := hcode.one_lt; omega, rfl⟩
  refine (hstart.advance (canAnswer_deletePass _ _)
    (meets_deletePass (E := fun _ => True) trivial _ _).ensures
    (may_of_edits (spans_deletePass rates.delete hcode.fits) hcode.one_lt hdeletes)).bind
    fun deleted hdeleted => ?_
  refine (hdeleted.advance (canAnswer_changePass _ r hdeleted.ne_nil)
    (meets_changePass (E := fun _ => True) trivial _ r fun _ => trivial).ensures
    (may_of_edits (spans_changePass rates.change r hcode.fits) trivial
      (exists_alters hcode.ne_nil))).bind fun altered haltered => ?_
  refine (haltered.advance (canAnswer_swapPass _ _)
    (meets_swapPass (E := fun _ => True) trivial _ _).ensures
    (may_of_edits (spans_swapPass rates.swap hcode.fits) hcode.one_lt hcode.swaps)).bind
    fun swapped hswapped => ?_
  refine (hswapped.advance (canAnswer_addPass _ r _)
    (meets_addPass (E := fun _ => True) trivial _ r _).ensures
    (may_of_edits (spans_addPass rates.add r hcode.fits) hcode.room exists_inserts)).bind
    fun added hadded => .pure ?_
  refine hadded.progress.resolve_right fun hidle => hidle.2 ?_
  simpa [InstructionRates.Fire, or_assoc] using h

theorem may_mutateInstructions (hcode : Editable r code) (h : rates.Fire) {attempts : ℕ}
    (hattempts : attempts ≠ 0) : (mutateInstructions rates r attempts code).May
      fun c => c.changed = true ∧ c.code ≠ [] := by
  obtain ⟨n, rfl⟩ := Nat.exists_eq_succ_of_ne_zero hattempts
  have hof : (pass rates r code).Meets (fun _ => True) (Change.Of code) :=
    meets_pass trivial fun _ => trivial
  refine ((may_pass hcode h).and_ensures hof.ensures).bind fun c ⟨hc, hnext⟩ => ?_
  rw [if_pos hc]
  exact .pure ⟨hc, mt hnext.nil hcode.ne_nil⟩

/-- Further passes are counted with those before. -/
theorem ensures_repeatPasses_le (extra : ℕ) : ∀ passes code,
    (repeatPasses rates r m passes extra code).Ensures fun o => passes ≤ o.1 := by
  induction extra with
  | zero => exact fun _ _ => .pure le_rfl
  | succ extra ih =>
    refine fun passes code => .after fun shown => ?_
    cases shown with
    | false => exact .pure le_rfl
    | true =>
      refine .after fun c => (ih _ c.code).mono fun o ho => ?_
      split at ho
      · exact (Nat.le_succ _).trans ho
      · exact ho

/-- If an operator can fire, a mutation can change such a program. -/
theorem may_mutate {p : Program} (hcode : Editable r p.code)
    (h : (InstructionRates.ofSettings m).Fire) (hattempts : m.maxChangeAttempts ≠ 0) :
    (p.mutate m r none).May fun o => o.1.changed = true := by
  refine (may_mutateInstructions hcode h hattempts).bind fun first ⟨hfirst, hne⟩ => ?_
  rw [if_pos hfirst]
  refine ((canAnswer_repeatPasses _ hne).may (ensures_repeatPasses_le _ 1 _)).bind
    fun o ho => .pure ?_
  dsimp only
  rw [if_neg (Nat.one_le_iff_ne_zero.1 ho)]
  rfl

end fire

end Program

end TangledPrograms
