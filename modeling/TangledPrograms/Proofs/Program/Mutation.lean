import TangledPrograms.Program.Mutation
import TangledPrograms.Proofs.Random.Fair

/-!
# What random programs and mutations leave

An operator that tells of no change has made none, and none of them takes the last instruction away.
So an empty range is met only in a program that is empty before, and some words bring every operator
to its end. What is called distinct has been compared with the corpus as it is handed back.
-/

namespace TangledPrograms

open Draw

theorem Instruction.range_ne_zero (r : InstructionRanges) (f : Field) :
    (max (f.range r) 1).toNat ≠ 0 := by
  change (if f.range r ≤ 1 then 1 else f.range r).toNat ≠ 0
  split
  · decide
  · rename_i h
    rw [UInt32.le_iff_toNat_le, UInt32.toNat_one] at h
    omega

section instruction

variable {E : Halt → Prop} (hE : E .starved)
include hE

theorem Instruction.meets_drawField (r : InstructionRanges) (f : Field) :
    (drawField r f).Meets E fun _ => True :=
  ((yields_below (range_ne_zero r f)).meets hE).bind fun _ _ => .pure trivial

theorem Instruction.meets_random (r : InstructionRanges) : (random r).Meets E fun _ => True := by
  have hfield := meets_drawField hE r
  unfold random
  exact (hfield _).bind fun _ _ => (hfield _).bind fun _ _ => (hfield _).bind fun _ _ =>
    (hfield _).bind fun _ _ => (hfield _).bind fun _ _ => (hfield _).bind fun _ _ => .pure trivial

theorem Program.meets_random (id : ProgramId) (r : InstructionRanges) :
    (random id r).Meets E fun p => p.code ≠ [] := by
  have hrange : max r.maxLength 1 ≠ 0 := by omega
  refine ((yields_below hrange).meets hE).bind fun length _ => ?_
  refine (Meets.mapM (fun _ => Instruction.meets_random hE r) _).bind fun code ⟨hlength, _⟩ => ?_
  rw [List.length_replicate] at hlength
  exact .pure (List.ne_nil_of_length_eq_add_one hlength)

end instruction

theorem Instruction.canAnswer_random (r : InstructionRanges) : (random r).CanAnswer := by
  have hfield : ∀ f, (drawField r f).CanAnswer := fun f =>
    (canAnswer_below (range_ne_zero r f)).bind fun _ => .pure _
  unfold random
  exact (hfield _).bind fun _ => (hfield _).bind fun _ => (hfield _).bind fun _ =>
    (hfield _).bind fun _ => (hfield _).bind fun _ => (hfield _).bind fun _ => .pure _

/-- A change of given instructions: the same if it tells of none, and empty only if they were. -/
structure Change.Of (code : List Instruction) (c : Change) : Prop where
  same : c.changed = false → c.code = code
  nil : c.code = [] → code = []

namespace Change.Of

variable {code : List Instruction} {c d : Change}

theorem refl (code : List Instruction) : Of code ⟨false, code⟩ := ⟨fun _ => rfl, id⟩

theorem of_nil {next : List Instruction} (h : next = [] → code = []) : Of code ⟨true, next⟩ :=
  ⟨nofun, h⟩

theorem trans (hc : Of code c) (hd : Of c.code d) : Of code ⟨c.changed || d.changed, d.code⟩ where
  same h := by
    obtain ⟨hsame, hsame'⟩ := Bool.or_eq_false_iff.1 h
    exact (hd.same hsame').trans (hc.same hsame)
  nil h := hc.nil (hd.nil h)

end Change.Of

namespace Program

variable {E : Halt → Prop} (hE : E .starved) {code : List Instruction}

section operators

include hE

theorem meets_deletePass (rate : Float) (code : List Instruction) :
    (deletePass rate code).Meets E (Change.Of code) := by
  rw [deletePass]
  split
  · exact .pure (.refl code)
  · have hlength : code.length ≠ 0 := by omega
    refine ((yields_toss rate).meets hE).bind fun shown _ => ?_
    cases shown with
    | false => exact .pure (.refl code)
    | true =>
      refine ((yields_below hlength).meets hE).bind fun place hplace => .pure (.of_nil fun h => ?_)
      -- at least two instructions, of which one goes
      have hleft := List.length_eraseIdx_of_lt hplace
      rw [h, List.length_nil] at hleft
      omega

theorem meets_changeField (r : InstructionRanges) (hcode : code = [] → E .emptyRange) :
    (changeField r code).Meets E (Change.Of code) := by
  rw [changeField]
  have hplaces : code.length = 0 → E .emptyRange := fun h => hcode (List.length_eq_zero_iff.1 h)
  refine (meets_below hE hplaces).bind fun place _ => ?_
  refine ((yields_chosen Field.all).meets hE).bind fun field _ => ?_
  split
  · refine ((yields_resampleDifferent _ _).meets hE).bind fun o _ => ?_
    cases o with
    | none => exact .pure (.refl code)
    | some value => exact .pure (.of_nil (List.set_eq_nil_iff _ _).1)
  · exact .pure (.refl code)

theorem meets_changePass (rate : Float) (r : InstructionRanges) (hcode : code = [] → E .emptyRange) :
    (changePass rate r code).Meets E (Change.Of code) := by
  refine ((yields_toss rate).meets hE).bind fun shown _ => ?_
  cases shown with
  | false => exact .pure (.refl code)
  | true => exact meets_changeField hE r hcode

omit hE in
theorem length_exchange (code : List Instruction) (a b : ℕ) :
    (exchange code a b).length = code.length := by
  unfold exchange
  split <;> simp

theorem meets_swapPass (rate : Float) (code : List Instruction) :
    (swapPass rate code).Meets E (Change.Of code) := by
  rw [swapPass]
  split
  · exact .pure (.refl code)
  · have hfirst : code.length ≠ 0 := by omega
    have hrest : code.length - 1 ≠ 0 := by omega
    refine ((yields_toss rate).meets hE).bind fun shown _ => ?_
    cases shown with
    | false => exact .pure (.refl code)
    | true =>
      refine ((yields_below hfirst).meets hE).bind fun a _ => ?_
      refine ((yields_below hrest).meets hE).bind fun b _ => ?_
      dsimp only
      split
      · exact .pure (.refl code)
      · refine .pure (.of_nil fun h => ?_)
        have hlength := length_exchange code a ((a + (1 + b)) % code.length)
        rw [h] at hlength
        exact List.length_eq_zero_iff.1 hlength.symm

theorem meets_addPass (rate : Float) (r : InstructionRanges) (code : List Instruction) :
    (addPass rate r code).Meets E (Change.Of code) := by
  rw [addPass]
  split
  · exact .pure (.refl code)
  · refine ((yields_toss rate).meets hE).bind fun shown _ => ?_
    cases shown with
    | false => exact .pure (.refl code)
    | true =>
      refine ((yields_below (Nat.succ_ne_zero _)).meets hE).bind fun place hplace => ?_
      refine (Instruction.meets_random hE r).bind fun i _ => .pure (.of_nil fun h => ?_)
      have hlength := List.length_insertIdx_of_le_length (Nat.le_of_lt_succ hplace) i
      rw [h] at hlength
      exact absurd hlength (Nat.succ_ne_zero _).symm

end operators

section passes

include hE

variable {rates : InstructionRates} {r : InstructionRanges}

theorem meets_pass (hcode : code = [] → E .emptyRange) :
    (pass rates r code).Meets E (Change.Of code) := by
  refine (meets_deletePass hE _ code).bind fun deleted hdeleted => ?_
  refine (meets_changePass hE _ r fun h => hcode (hdeleted.nil h)).bind fun altered haltered => ?_
  refine (meets_swapPass hE _ altered.code).bind fun swapped hswapped => ?_
  refine (meets_addPass hE _ r swapped.code).bind fun added hadded => .pure ?_
  exact ((hdeleted.trans haltered).trans hswapped).trans hadded

theorem meets_mutateInstructions (hcode : code = [] → E .emptyRange) (attempts : ℕ) :
    (mutateInstructions rates r attempts code).Meets E (Change.Of code) := by
  induction attempts generalizing code with
  | zero => exact .pure (.refl code)
  | succ attempts ih =>
    refine (meets_pass hE hcode).bind fun c hc => ?_
    split
    · exact .pure hc
    · rename_i hchanged
      refine (ih fun h => hcode (hc.nil h)).mono fun d hd => ?_
      have hboth := hc.trans hd
      rwa [Bool.eq_false_iff.2 hchanged, Bool.false_or] at hboth

end passes

/-- The outcome of the mutation of a program, and the program that it leaves. -/
structure Outcome (m : MutationSettings) (corpus : Option UniquenessCorpus) (p : Program)
    (o : ProgramMutation × Program) : Prop where
  same : o.1.changed = false → o.2 = p
  nil : o.2.code = [] → p.code = []
  distinct : ∀ k, o.1 = .distinct k →
    ∃ c ∈ corpus, c.distinguishes o.2 m.uniqueThreshold.toFloat = true

section mutate

include hE

variable {rates : InstructionRates} {r : InstructionRanges} {m : MutationSettings} {p : Program}

theorem meets_seekDistinct (hcode : p.code = [] → E .emptyRange) (corpus : UniquenessCorpus)
    (rounds : ℕ) : ∀ {changed : Bool} {attempt : ℕ} {q : Program},
      (changed = false → q = p) → (q.code = [] → p.code = []) →
      (seekDistinct rates r m corpus changed attempt rounds q).Meets E (Outcome m corpus p) := by
  induction rounds with
  | zero =>
    intro changed attempt q hsame hnil
    cases changed with
    | false => exact .pure ⟨fun _ => hsame rfl, hnil, nofun⟩
    | true => exact .pure ⟨nofun, hnil, nofun⟩
  | succ rounds ih =>
    intro changed attempt q hsame hnil
    refine (meets_mutateInstructions hE (fun h => hcode (hnil h)) _).bind fun c hc => ?_
    have hnil' : c.code = [] → p.code = [] := fun h => hnil (hc.nil h)
    dsimp only
    split
    · rename_i hdistinct
      have hdistinguishes := (Bool.and_eq_true_iff.1 hdistinct).2
      exact .pure ⟨nofun, hnil', fun _ _ => ⟨corpus, rfl, hdistinguishes⟩⟩
    · refine ih (fun h => ?_) hnil'
      obtain ⟨hunchanged, hunchanged'⟩ := Bool.or_eq_false_iff.1 h
      rw [hc.same hunchanged', ← hsame hunchanged]

theorem meets_repeatPasses (hcode : code = [] → E .emptyRange) (extra : ℕ) :
    ∀ {passes : ℕ} {next : List Instruction},
      (passes = 0 → next = code) → (next = [] → code = []) →
      (repeatPasses rates r m passes extra next).Meets E fun o =>
        (o.1 = 0 → o.2 = code) ∧ (o.2 = [] → code = []) := by
  induction extra with
  | zero => exact fun hsame hnil => .pure ⟨hsame, hnil⟩
  | succ extra ih =>
    intro passes next hsame hnil
    refine ((yields_toss _).meets hE).bind fun shown _ => ?_
    cases shown with
    | false => exact .pure ⟨hsame, hnil⟩
    | true =>
      refine (meets_mutateInstructions hE (fun h => hcode (hnil h)) _).bind fun c hc => ?_
      refine ih (fun hpasses => ?_) fun h => hnil (hc.nil h)
      split at hpasses
      · cases hpasses
      · rename_i hchanged
        rw [hc.same (Bool.eq_false_iff.2 hchanged), hsame hpasses]

/-- Only an empty program can ask for an instruction where there is none. -/
theorem meets_mutate (hcode : p.code = [] → E .emptyRange) (m : MutationSettings)
    (r : InstructionRanges) (corpus : Option UniquenessCorpus) :
    (p.mutate m r corpus).Meets E (Outcome m corpus p) := by
  cases corpus with
  | some corpus => exact meets_seekDistinct hE hcode corpus _ (fun _ => rfl) fun h => h
  | none =>
    refine (meets_mutateInstructions hE hcode _).bind fun first hfirst => ?_
    have hsame : (if first.changed then 1 else 0) = 0 → first.code = p.code := by
      intro h
      split at h
      · cases h
      · rename_i hchanged
        exact hfirst.same (Bool.eq_false_iff.2 hchanged)
    refine (meets_repeatPasses hE hcode _ hsame hfirst.nil).bind fun o ho => ?_
    refine .pure ⟨fun h => ?_, ho.2, ?_⟩
    · dsimp only at h ⊢
      split at h
      · rw [ho.1 ‹_›]
      · cases h
    · intro k hk
      dsimp only at hk
      split at hk <;> cases hk

end mutate

section answers

variable {rates : InstructionRates} {r : InstructionRanges} {m : MutationSettings}

theorem canAnswer_deletePass (rate : Float) (code : List Instruction) :
    (deletePass rate code).CanAnswer := by
  rw [deletePass]
  split
  · exact .pure _
  · refine (canAnswer_coin rate).bind fun shown => ?_
    cases shown with
    | false => exact .pure _
    | true => exact (canAnswer_below (by omega)).bind fun _ => .pure _

theorem canAnswer_changePass (rate : Float) (r : InstructionRanges) (hcode : code ≠ []) :
    (changePass rate r code).CanAnswer := by
  refine (canAnswer_coin rate).bind fun shown => ?_
  cases shown with
  | false => exact .pure _
  | true =>
    refine (canAnswer_below (mt List.length_eq_zero_iff.1 hcode)).bind fun place => ?_
    refine (canAnswer_choose Field.all).bind fun field => ?_
    split
    · refine (canAnswer_resampleDifferent _ _).bind fun o => ?_
      cases o <;> exact .pure _
    · exact .pure _

theorem canAnswer_swapPass (rate : Float) (code : List Instruction) :
    (swapPass rate code).CanAnswer := by
  rw [swapPass]
  split
  · exact .pure _
  · refine (canAnswer_coin rate).bind fun shown => ?_
    cases shown with
    | false => exact .pure _
    | true =>
      refine (canAnswer_below (by omega)).bind fun a => ?_
      refine (canAnswer_below (by omega)).bind fun b => ?_
      dsimp only
      split <;> exact .pure _

theorem canAnswer_addPass (rate : Float) (r : InstructionRanges) (code : List Instruction) :
    (addPass rate r code).CanAnswer := by
  rw [addPass]
  split
  · exact .pure _
  · refine (canAnswer_coin rate).bind fun shown => ?_
    cases shown with
    | false => exact .pure _
    | true =>
      refine (canAnswer_below (Nat.succ_ne_zero _)).bind fun place => ?_
      exact (Instruction.canAnswer_random r).bind fun _ => .pure _

theorem canAnswer_pass (hcode : code ≠ []) : (pass rates r code).CanAnswer := by
  have hdelete : (deletePass rates.delete code).Ensures (Change.Of code) :=
    (meets_deletePass (E := fun _ => True) trivial _ _).ensures
  refine (canAnswer_deletePass _ code).bind_of_ensures hdelete fun deleted hdeleted => ?_
  refine (canAnswer_changePass _ r (mt hdeleted.nil hcode)).bind fun altered => ?_
  refine (canAnswer_swapPass _ altered.code).bind fun swapped => ?_
  exact (canAnswer_addPass _ r swapped.code).bind fun _ => .pure _

theorem canAnswer_mutateInstructions (hcode : code ≠ []) (attempts : ℕ) :
    (mutateInstructions rates r attempts code).CanAnswer := by
  induction attempts generalizing code with
  | zero => exact .pure _
  | succ attempts ih =>
    have hpass : (pass rates r code).Ensures (Change.Of code) :=
      (meets_pass (E := fun _ => True) trivial fun _ => trivial).ensures
    refine (canAnswer_pass hcode).bind_of_ensures hpass fun c hc => ?_
    split
    · exact .pure _
    · exact ih (mt hc.nil hcode)

private theorem mutateInstructions_of (attempts : ℕ) (code : List Instruction) :
    (mutateInstructions rates r attempts code).Ensures (Change.Of code) :=
  (meets_mutateInstructions (E := fun _ => True) trivial (fun _ => trivial) attempts).ensures

theorem canAnswer_seekDistinct (corpus : UniquenessCorpus) (rounds : ℕ) :
    ∀ {changed : Bool} {attempt : ℕ} {p : Program}, p.code ≠ [] →
      (seekDistinct rates r m corpus changed attempt rounds p).CanAnswer := by
  induction rounds with
  | zero => exact fun _ => .pure _
  | succ rounds ih =>
    intro changed attempt p hcode
    refine (canAnswer_mutateInstructions hcode _).bind_of_ensures (mutateInstructions_of _ _)
      fun c hc => ?_
    dsimp only
    split
    · exact .pure _
    · exact ih (mt hc.nil hcode)

theorem canAnswer_repeatPasses (extra : ℕ) : ∀ {passes : ℕ} {code : List Instruction}, code ≠ [] →
    (repeatPasses rates r m passes extra code).CanAnswer := by
  induction extra with
  | zero => exact fun _ => .pure _
  | succ extra ih =>
    intro passes code hcode
    refine (canAnswer_coin _).bind fun shown => ?_
    cases shown with
    | false => exact .pure _
    | true =>
      exact (canAnswer_mutateInstructions hcode _).bind_of_ensures (mutateInstructions_of _ _)
        fun c hc => ih (mt hc.nil hcode)

/-- A program with an instruction can be mutated, with a corpus and without. -/
theorem canAnswer_mutate {p : Program} (hcode : p.code ≠ []) (m : MutationSettings)
    (r : InstructionRanges) (corpus : Option UniquenessCorpus) : (p.mutate m r corpus).CanAnswer := by
  cases corpus with
  | some corpus => exact canAnswer_seekDistinct corpus _ hcode
  | none =>
    refine (canAnswer_mutateInstructions hcode _).bind_of_ensures (mutateInstructions_of _ _)
      fun first hfirst => ?_
    exact (canAnswer_repeatPasses _ (mt hfirst.nil hcode)).bind fun _ => .pure _

end answers

section id

variable {r : InstructionRanges} {m : MutationSettings}

theorem ensures_seekDistinct_id {rates : InstructionRates} {corpus : UniquenessCorpus} (rounds : ℕ) :
    ∀ {changed : Bool} {attempt : ℕ} {p : Program},
      (seekDistinct rates r m corpus changed attempt rounds p).Ensures fun o => o.2.id = p.id := by
  induction rounds with
  | zero => exact .pure rfl
  | succ rounds ih =>
    refine .after fun c => ?_
    dsimp only
    split
    · exact .pure rfl
    · exact ih

/-- Only the instructions are mutated. -/
theorem ensures_mutate_id (p : Program) (corpus : Option UniquenessCorpus) :
    (p.mutate m r corpus).Ensures fun o => o.2.id = p.id := by
  cases corpus with
  | some corpus => exact ensures_seekDistinct_id _
  | none => exact .after fun first => .after fun o => .pure rfl

end id

end Program

end TangledPrograms
