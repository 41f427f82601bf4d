import TangledPrograms.Proofs.Program.Passes

/-!
# Changes that come to nothing

A program that differs after its mutation is reported as changed. The converse fails: the operators
of a pass tell of their own edits, and the insertion can bring back what the deletion has taken away.
Nothing else can be undone within a pass, since an alteration changes one place, an exchange two, and
each of the other two edits the length. So the report is exact as long as no pass can delete and
restore.
-/

namespace TangledPrograms

open Draw

namespace Program

variable {rates : InstructionRates} {r : InstructionRanges} {code next : List Instruction}

theorem Alters.differs (h : Alters r code next) :
    ∃ place : ℕ, next[place]? ≠ code[place]? ∧ ∀ q : ℕ, q ≠ place → next[q]? = code[q]? := by
  obtain ⟨place, i, f, v, hi, -, hne, rfl⟩ := h
  refine ⟨place, fun heq => hne ?_, fun q hq => List.getElem?_set_ne hq.symm⟩
  rw [List.getElem?_set_self (List.getElem?_eq_some_iff.1 hi).1, hi] at heq
  calc v = (i.set f v).get f := (Instruction.get_set_self i f v).symm
    _ = i.get f := by rw [Option.some.inj heq]

theorem Swaps.differs (h : Swaps code next) :
    ∃ a b : ℕ, a ≠ b ∧ next[a]? ≠ code[a]? ∧ next[b]? ≠ code[b]? := by
  obtain ⟨a, b, i, j, hi, hj, hij, rfl⟩ := h
  have hab : a ≠ b := by
    rintro rfl
    exact hij (Option.some.inj (hi.symm.trans hj))
  have ha := (List.getElem?_eq_some_iff.1 hi).1
  have hb := (List.getElem?_eq_some_iff.1 hj).1
  refine ⟨a, b, hab, ?_, ?_⟩
  · rw [List.getElem?_set_ne hab.symm, List.getElem?_set_self ha, hi]
    exact fun heq => hij (Option.some.inj heq).symm
  · rw [List.getElem?_set_self (by rwa [List.length_set]), hj]
    exact fun heq => hij (Option.some.inj heq)

/-- An exchange does not undo an alteration: it changes a second place. -/
theorem Alters.not_swaps (h : Alters r code next) : ¬ Swaps next code := by
  intro hswaps
  obtain ⟨place, -, hsame⟩ := h.differs
  obtain ⟨a, b, hab, ha, hb⟩ := hswaps.differs
  have hplace : ∀ q, code[q]? ≠ next[q]? → q = place := fun q hq =>
    of_not_not fun hne => hq (hsame q hne).symm
  exact hab ((hplace a ha).trans (hplace b hb).symm)

/-- What alters or exchanges leaves another program. -/
theorem ne_of_altered_or_swapped {rate rate' : Float} {altered swapped : Change}
    (halter : AlterOutcome rate r code altered) (hswap : SwapOutcome rate' altered.code swapped)
    (hchanged : altered.changed = true ∨ swapped.changed = true) : swapped.code ≠ code := by
  intro hsame
  obtain ⟨-, -, -, halters⟩ | ⟨hkept, haltered⟩ := halter.cases
  · obtain ⟨-, -, -, hswaps⟩ | ⟨-, hswapped⟩ := hswap.cases
    · exact halters.not_swaps (hsame ▸ hswaps)
    · obtain ⟨place, hne, -⟩ := halters.differs
      rw [← hswapped, hsame] at hne
      exact hne rfl
  · obtain ⟨-, -, -, hswaps⟩ | ⟨hkept', -⟩ := hswap.cases
    · obtain ⟨a, -, -, hne, -⟩ := hswaps.differs
      rw [hsame, haltered] at hne
      exact hne rfl
    · rw [hkept, hkept'] at hchanged
      simp at hchanged

/-- A pass can delete an instruction and insert one so that, with what is done between, the program is
the same again. -/
inductive Restores (rates : InstructionRates) (r : InstructionRanges) (code : List Instruction) :
    Prop where
  | inOrder {deleted : List Instruction} {altered swapped : Change} (hlength : 1 < code.length)
    (hdelete : CanShow rates.delete true) (hdeletes : Deletes code deleted)
    (halter : AlterOutcome rates.change r deleted altered)
    (hswap : SwapOutcome rates.swap altered.code swapped)
    (hroom : swapped.code.length < r.maxLength) (hadd : CanShow rates.add true)
    (hinserts : Inserts r swapped.code code)

/-- A pass that tells of a change and leaves the program as it was has deleted and inserted. -/
theorem Passes.restores {c : Change} (h : Passes rates r code c) (hchanged : c.changed = true)
    (hsame : c.code = code) : Restores rates r code := by
  obtain ⟨hdelete, halter, hswap, hinsert⟩ := h
  rename_i deleted altered swapped inserted
  dsimp only at hchanged hsame
  have haltered := length_eq_of_alterOutcome halter
  have hswapped := length_eq_of_swapOutcome hswap
  obtain ⟨-, hlong, hshown, hdeletes⟩ | ⟨hkept, hdeleted⟩ := hdelete.cases
  · have hshorter := hdeletes.length
    obtain ⟨-, hroom, hadd, hinserts⟩ | ⟨-, hinserted⟩ := hinsert.cases
    · exact .inOrder hlong hshown hdeletes halter hswap hroom hadd (hsame ▸ hinserts)
    · rw [← hinserted, hsame] at hswapped
      omega
  · rw [hdeleted] at halter haltered
    obtain ⟨-, -, -, hinserts⟩ | ⟨hkept', hinserted⟩ := hinsert.cases
    · have hlonger := hinserts.length
      rw [hsame] at hlonger
      omega
    · rw [hinserted] at hsame
      rw [hkept, hkept', Bool.false_or, Bool.or_false, Bool.or_eq_true] at hchanged
      exact absurd hsame (ne_of_altered_or_swapped halter hswap hchanged)

theorem Restores.passes (h : Restores rates r code) : Passes rates r code ⟨true, code⟩ := by
  obtain ⟨hlength, hdelete, hdeletes, halter, hswap, hroom, hadd, hinserts⟩ := h
  have hpasses : Passes rates r code _ :=
    .inOrder (.edited hlength hdelete hdeletes) halter hswap (.edited hroom hadd hinserts)
  rwa [Bool.or_true] at hpasses

/-- What is brought back is an instruction that can be made at random. -/
theorem Restores.exists_sampled (h : Restores rates r code) :
    ∃ i ∈ code, Instruction.Sampled r i := by
  obtain ⟨-, -, -, -, -, -, -, place, hplace, i, hi, rfl⟩ := h
  exact ⟨i, (List.mem_insertIdx hplace).2 (.inl rfl), hi⟩

/-- Where nothing needs to be done in between, the deleted instruction itself can be brought back. -/
theorem restores_iff_of_idle (halter : CanShow rates.change false)
    (hswap : CanShow rates.swap false) : Restores rates r code ↔
      1 < code.length ∧ code.length ≤ r.maxLength ∧ CanShow rates.delete true ∧
        CanShow rates.add true ∧ ∃ i ∈ code, Instruction.Sampled r i := by
  constructor
  · intro h
    have hsampled := h.exists_sampled
    obtain ⟨hlength, hdelete, hdeletes, -, -, hroom, hadd, hinserts⟩ := h
    have hlonger := hinserts.length
    exact ⟨hlength, by omega, hdelete, hadd, hsampled⟩
  · rintro ⟨hlength, hfull, hdelete, hadd, i, hmem, hi⟩
    obtain ⟨place, hplace, rfl⟩ := List.mem_iff_getElem.1 hmem
    have hdeletes : Deletes code (code.eraseIdx place) := ⟨place, hplace, rfl⟩
    have hshorter := hdeletes.length
    have hinserts : Inserts r (code.eraseIdx place) code :=
      ⟨place, by omega, code[place], hi, (List.insertIdx_eraseIdx_getElem hplace).symm⟩
    exact .inOrder hlength hdelete hdeletes (.idle fun _ => halter) (.idle fun _ => hswap)
      (by dsimp only; omega) hadd hinserts

section calls

variable (hlength : code.length < UInt64.size)
include hlength

/-- Passes without a change leave the program as it was, so the pass that tells of one starts from
it. -/
theorem ensures_differs (h : ¬ Restores rates r code) (attempts : ℕ) :
    (mutateInstructions rates r attempts code).Ensures fun c =>
      c.changed = true → c.code ≠ code := by
  induction attempts with
  | zero => exact .pure nofun
  | succ attempts ih =>
    have hpass := (meets_pass (E := fun _ => True) trivial fun _ => trivial).and_ensures
      (spans_pass rates r hlength).sound
    refine hpass.ensures.bind fun c ⟨hc, hpasses⟩ => ?_
    split
    · exact .pure fun hchanged hsame => h (hpasses.restores hchanged hsame)
    · rename_i hchanged
      rw [hc.same (Bool.eq_false_iff.2 hchanged)]
      exact ih

end calls

/-- A call reports every difference. That it reports nothing else holds on all streams exactly if it
makes no pass or no pass can bring the program back, which for coins that may leave the alteration and
the exchange out means: unless an instruction can be deleted, one can be inserted after that, and the
program has an instruction that can be made at random. -/
theorem mutateInstructions_tells_iff (rates : InstructionRates) (r : InstructionRanges)
    (attempts : ℕ) (hlength : code.length < UInt64.size) :
    (mutateInstructions rates r attempts code).Ensures
        (fun c => c.code ≠ code → c.changed = true) ∧
      ((mutateInstructions rates r attempts code).Ensures
          (fun c => c.changed = true ↔ c.code ≠ code) ↔
        attempts = 0 ∨ ¬ Restores rates r code) ∧
      (CanShow rates.change false → CanShow rates.swap false → (Restores rates r code ↔
        1 < code.length ∧ code.length ≤ r.maxLength ∧ CanShow rates.delete true ∧
          CanShow rates.add true ∧ ∃ i ∈ code, Instruction.Sampled r i)) := by
  have hreports : (mutateInstructions rates r attempts code).Ensures
      fun c => c.code ≠ code → c.changed = true := by
    refine (meets_mutateInstructions (E := fun _ => True) trivial (fun _ => trivial)
      attempts).ensures.mono fun c hc hne => ?_
    by_contra hchanged
    exact hne (hc.same (Bool.eq_false_iff.2 hchanged))
  refine ⟨hreports, ⟨fun h => ?_, fun h => ?_⟩, restores_iff_of_idle⟩
  · rw [or_iff_not_imp_left]
    intro hattempts hrestores
    obtain ⟨n, rfl⟩ := Nat.exists_eq_succ_of_ne_zero hattempts
    obtain ⟨s, s', hpass⟩ := ((spans_pass rates r hlength).exists_iff _).2 hrestores.passes
    have hcall : mutateInstructions rates r (n + 1) code s = .ok (⟨true, code⟩, s') := by
      rw [mutateInstructions, bind_apply, hpass]
      rfl
    exact (h s _ s' hcall).1 rfl rfl
  · obtain rfl | hrestores := h
    · exact .pure ⟨nofun, fun h => absurd rfl h⟩
    · intro s c s' hcall
      exact ⟨ensures_differs hlength hrestores attempts s c s' hcall, hreports s c s' hcall⟩

/-- The deletion and the insertion are certain, the other operators never tried. -/
def deleteAndAdd : InstructionRates := ⟨1.0, 1.0, 0.0, 0.0⟩

/-- Instructions that read their source from one of two places. -/
def twoSources : InstructionRanges := ⟨1, 1, 2, 8⟩

/-- No random instruction has such a destination. -/
theorem mutateInstructions_tells_outlying :
    let code : List Instruction := [⟨0, 0, 0, 5, 0, 0⟩, ⟨0, 0, 0, 6, 0, 0⟩]
    code.length < UInt64.size ∧ (mutateInstructions deleteAndAdd twoSources 3 code).Ensures
      fun c => c.changed = true ↔ c.code ≠ code := by
  intro code
  have hlength : code.length < UInt64.size := by decide
  refine ⟨hlength, (mutateInstructions_tells_iff deleteAndAdd twoSources 3 hlength).2.1.2
    (.inr fun hrestores => ?_)⟩
  obtain ⟨i, hi, hsampled⟩ := hrestores.exists_sampled
  have hdest := hsampled .dest
  clear hsampled
  revert i
  decide

/-- Two instructions that can both be made at random. -/
def ordinaryPair : List Instruction := [⟨0, 0, 0, 0, 0, 0⟩, ⟨1, 0, 0, 0, 0, 0⟩]

/-- The first instruction is deleted and comes back. -/
theorem deleted_comes_back : ∃ c s', mutateInstructions deleteAndAdd twoSources 1 ordinaryPair
    (.ofWords [0, 0, 0, 0, 0, 0, 0, 0, 0, 0, 0]) = .ok (c, s') ∧
      ¬ (c.changed = true ↔ c.code ≠ ordinaryPair) := by
  refine ⟨⟨true, ordinaryPair⟩, _, rfl, fun h => ?_⟩
  exact h.1 rfl rfl

end Program

end TangledPrograms
