import TangledPrograms.Proofs.Program.Bounds
import TangledPrograms.Proofs.Program.Targets

/-!
# What a pass can do

A pass tries its four operators in turn: it deletes an instruction, alters a field, swaps two
instructions and inserts a random one. What an operator can come to is said by its edit, by when it is
tried at all, and by when it leaves the instructions as they are although it is tried. A pass can come
to all that its operators can come to in turn, and to nothing else.
-/

namespace TangledPrograms

open Draw

namespace Program

def Deletes (code next : List Instruction) : Prop :=
  ∃ place < code.length, next = code.eraseIdx place

/-- A field of an instruction has another value below its range. -/
def Alters (r : InstructionRanges) (code next : List Instruction) : Prop :=
  ∃ place i f v, code[place]? = some i ∧ v < f.range r ∧ v ≠ i.get f ∧
    next = code.set place (i.set f v)

/-- Two instructions that differ have changed places. -/
def Swaps (code next : List Instruction) : Prop :=
  ∃ a b i j, code[a]? = some i ∧ code[b]? = some j ∧ i ≠ j ∧ next = (code.set a j).set b i

def Inserts (r : InstructionRanges) (code next : List Instruction) : Prop :=
  ∃ place ≤ code.length, ∃ i, Instruction.Sampled r i ∧ next = code.insertIdx place i

/-- Some field of some instruction has no other value below its range. -/
def Stuck (r : InstructionRanges) (code : List Instruction) : Prop :=
  ∃ i ∈ code, ∃ f : Field, ∀ v < f.range r, v = i.get f

/-- What an operator can come to: it is tried if there is a place for it and its coin shows true, and
then it makes an edit, or none if it can fail. -/
inductive Operated (rate : Float) (tried : Prop) (edits : List Instruction → Prop) (fails : Prop)
    (code : List Instruction) : Change → Prop where
  | edited {next : List Instruction} (htried : tried) (hcoin : CanShow rate true) (h : edits next) :
    Operated rate tried edits fails code ⟨true, next⟩
  | failed (htried : tried) (hcoin : CanShow rate true) (h : fails) :
    Operated rate tried edits fails code ⟨false, code⟩
  | idle (h : tried → CanShow rate false) : Operated rate tried edits fails code ⟨false, code⟩

section operators

variable {rate : Float} {tried fails : Prop} {edits : List Instruction → Prop}
  {code : List Instruction} {x : Draw Change}

/-- The outcomes of an operator, by those of its edit. -/
theorem spans_operated (htried : tried)
    (hx : x.Spans fun c => c.changed = true ∧ edits c.code ∨ fails ∧ c = ⟨false, code⟩) :
    (do if ← coin rate then x else pure ⟨false, code⟩ : Draw Change).Spans
      (Operated rate tried edits fails code) := by
  have hbranch : ∀ shown : Bool, CanShow rate shown →
      (if shown then x else pure ⟨false, code⟩ : Draw Change).Spans fun c =>
        if shown then c.changed = true ∧ edits c.code ∨ fails ∧ c = ⟨false, code⟩
        else c = ⟨false, code⟩ := by
    intro shown _
    cases shown with
    | false => exact .pure _
    | true => exact hx
  refine ((spans_coin rate).bind hbranch).congr fun c => ⟨?_, fun h => ?_⟩
  · rintro ⟨_ | _, hcoin, hc⟩
    · obtain rfl := hc
      exact .idle fun _ => hcoin
    · obtain ⟨hchanged, hedits⟩ | ⟨hfails, rfl⟩ := hc
      · obtain ⟨changed, next⟩ := c
        cases hchanged
        exact .edited htried hcoin hedits
      · exact .failed htried hcoin hfails
  · cases h with
    | edited _ hcoin hedits => exact ⟨true, hcoin, .inl ⟨rfl, hedits⟩⟩
    | failed _ hcoin hfails => exact ⟨true, hcoin, .inr ⟨hfails, rfl⟩⟩
    | idle hcoin => exact ⟨false, hcoin htried, rfl⟩

/-- An operator that is not tried. -/
theorem spans_untried (htried : ¬ tried) :
    (pure ⟨false, code⟩ : Draw Change).Spans (Operated rate tried edits fails code) := by
  refine (Spans.pure _).congr fun c => ⟨?_, fun h => ?_⟩
  · rintro rfl
    exact .idle fun h => absurd h htried
  · cases h with
    | edited h => exact absurd h htried
    | failed h => exact absurd h htried
    | idle => rfl

end operators

section pass

variable {code : List Instruction} (rate : Float) (r : InstructionRanges)

abbrev DeleteOutcome (rate : Float) (code : List Instruction) : Change → Prop :=
  Operated rate (1 < code.length) (Deletes code) False code

abbrev AlterOutcome (rate : Float) (r : InstructionRanges) (code : List Instruction) :
    Change → Prop :=
  Operated rate True (Alters r code) (Stuck r code) code

/-- What the exchange can come to: equal instructions are left where they are. -/
abbrev SwapOutcome (rate : Float) (code : List Instruction) : Change → Prop :=
  Operated rate (1 < code.length) (Swaps code) (¬ code.Nodup) code

abbrev InsertOutcome (rate : Float) (r : InstructionRanges) (code : List Instruction) :
    Change → Prop :=
  Operated rate (code.length < r.maxLength) (Inserts r code) False code

theorem spans_deletePass (hlength : code.length < UInt64.size) :
    (deletePass rate code).Spans (DeleteOutcome rate code) := by
  rw [deletePass]
  split
  · exact spans_untried (by simpa using ‹_›)
  · have hne : code.length ≠ 0 := by omega
    refine spans_operated (Nat.not_le.1 ‹_›) ?_
    refine ((spans_below (w := .word64) hne hlength.le).then_pure _).congr fun c => ⟨?_, ?_⟩
    · rintro ⟨place, hplace, rfl⟩
      exact .inl ⟨rfl, place, hplace, rfl⟩
    · rintro (⟨hchanged, place, hplace, hnext⟩ | ⟨hfalse, -⟩)
      · obtain ⟨changed, next⟩ := c
        cases hchanged
        exact ⟨place, hplace, congrArg (Change.mk true) hnext⟩
      · exact hfalse.elim

theorem spans_changeField (hlength : code.length < UInt64.size) :
    (changeField r code).Spans fun c =>
      c.changed = true ∧ Alters r code c.code ∨ Stuck r code ∧ c = ⟨false, code⟩ := by
  by_cases hcode : code = []
  · -- there is no instruction to take
    subst hcode
    constructor
    · intro s c s' h
      cases h
    · rintro c (⟨-, place, i, f, v, hi, -⟩ | ⟨⟨i, hi, -⟩, -⟩)
      · cases hi
      · cases hi
  rw [changeField_eq]
  refine ((unbiased_fieldTarget hcode hlength).spans.then_pure (altered code)).congr fun c => ⟨?_, ?_⟩
  · rintro ⟨⟨place, _, o⟩, ⟨i, f, hi, rfl, ho⟩, rfl⟩
    simp only at hi ho
    cases o with
    | none => exact .inr ⟨⟨i, List.mem_of_getElem? hi, f, ho⟩, by simp only [altered, hi]⟩
    | some v =>
      simp only [altered, hi]
      exact .inl ⟨trivial, place, i, f, v, hi, ho.1, ho.2, rfl⟩
  · rintro (⟨hchanged, place, i, f, v, hi, hv, hne, hnext⟩ | ⟨⟨i, hmem, f, hstuck⟩, rfl⟩)
    · obtain ⟨changed, next⟩ := c
      cases hchanged
      refine ⟨(place, some f, some v), ⟨i, f, hi, rfl, hv, hne⟩, ?_⟩
      simp only [altered, hi]
      exact congrArg (Change.mk true) hnext
    · obtain ⟨place, hi⟩ := List.mem_iff_getElem?.1 hmem
      exact ⟨(place, some f, none), ⟨i, f, hi, rfl, hstuck⟩, by simp only [altered, hi]⟩

theorem spans_changePass (hlength : code.length < UInt64.size) :
    (changePass rate r code).Spans (AlterOutcome rate r code) :=
  spans_operated trivial (spans_changeField r hlength)

theorem spans_swapPass (hlength : code.length < UInt64.size) :
    (swapPass rate code).Spans (SwapOutcome rate code) := by
  by_cases hmany : 1 < code.length
  · rw [swapPass_eq rate hmany]
    refine spans_operated hmany ?_
    refine ((unbiased_swapTarget hmany hlength).spans.then_pure fun t => exchanged code t.1 t.2).congr
      fun c => ⟨?_, ?_⟩
    · rintro ⟨⟨a, b⟩, ⟨ha, hb, hne⟩, rfl⟩
      have hi : code[a]? = some code[a] := List.getElem?_eq_getElem ha
      have hj : code[b]? = some code[b] := List.getElem?_eq_getElem hb
      rw [exchanged, exchange, hi, hj]
      split
      · rename_i heq
        refine .inr ⟨fun hnodup => hne ?_, rfl⟩
        exact (List.Nodup.getElem_inj_iff hnodup).1 (Option.some.inj heq).symm
      · rename_i hdiffer
        exact .inl ⟨rfl, a, b, code[a], code[b], hi, hj, mt (congrArg some) hdiffer, rfl⟩
    · rintro (⟨hchanged, a, b, i, j, hi, hj, hij, hnext⟩ | ⟨hdouble, rfl⟩)
      · obtain ⟨changed, next⟩ := c
        cases hchanged
        have hab : b ≠ a := by
          rintro rfl
          exact hij (Option.some.inj (hi.symm.trans hj))
        have ha := (List.getElem?_eq_some_iff.1 hi).1
        have hb := (List.getElem?_eq_some_iff.1 hj).1
        have hdiffer : ¬ some i = some j := mt Option.some.inj hij
        refine ⟨(a, b), ⟨ha, hb, hab⟩, ?_⟩
        rw [exchanged, exchange, hi, hj, if_neg hdiffer]
        exact congrArg (Change.mk true) hnext
      · obtain ⟨a, b, hlt, hb, heq⟩ : ∃ a b, a < b ∧ b < code.length ∧ code[a]? = code[b]? := by
          simpa [List.nodup_iff_getElem?_ne_getElem?] using hdouble
        exact ⟨(a, b), ⟨hlt.trans hb, hb, hlt.ne'⟩, by rw [exchanged, if_pos heq]⟩
  · rw [swapPass, if_pos (Nat.not_lt.1 hmany)]
    exact spans_untried hmany

theorem spans_addPass (hlength : code.length < UInt64.size) :
    (addPass rate r code).Spans (InsertOutcome rate r code) := by
  rw [addPass]
  split
  · exact spans_untried (by simpa using ‹_›)
  · refine spans_operated (Nat.not_le.1 ‹_›) ?_
    have hall := (spans_below (w := .word64) (Nat.succ_ne_zero code.length) hlength).bind
      fun place _ => (Instruction.spans_random r).then_pure fun i =>
        (⟨true, code.insertIdx place i⟩ : Change)
    refine hall.congr fun c => ⟨?_, ?_⟩
    · rintro ⟨place, hplace, i, hi, rfl⟩
      exact .inl ⟨rfl, place, Nat.le_of_lt_succ hplace, i, hi, rfl⟩
    · rintro (⟨hchanged, place, hplace, i, hi, hnext⟩ | ⟨hfalse, -⟩)
      · obtain ⟨changed, next⟩ := c
        cases hchanged
        exact ⟨place, Nat.lt_succ_of_le hplace, i, hi, congrArg (Change.mk true) hnext⟩
      · exact hfalse.elim

/-- What a pass can come to: what its operators can come to, one after the other. -/
inductive Passes (rates : InstructionRates) (r : InstructionRanges) (code : List Instruction) :
    Change → Prop where
  | inOrder {deleted altered swapped inserted : Change}
    (hdelete : DeleteOutcome rates.delete code deleted)
    (halter : AlterOutcome rates.change r deleted.code altered)
    (hswap : SwapOutcome rates.swap altered.code swapped)
    (hinsert : InsertOutcome rates.add r swapped.code inserted) :
    Passes rates r code
      ⟨deleted.changed || altered.changed || swapped.changed || inserted.changed, inserted.code⟩

end pass

section frame

variable {code next : List Instruction} {r : InstructionRanges}

theorem Deletes.length (h : Deletes code next) : next.length + 1 = code.length := by
  obtain ⟨place, hplace, rfl⟩ := h
  rw [List.length_eraseIdx_of_lt hplace]
  omega

theorem Alters.length (h : Alters r code next) : next.length = code.length := by
  obtain ⟨place, i, f, v, -, -, -, rfl⟩ := h
  exact List.length_set

theorem Swaps.length (h : Swaps code next) : next.length = code.length := by
  obtain ⟨a, b, i, j, -, -, -, rfl⟩ := h
  rw [List.length_set, List.length_set]

theorem Inserts.length (h : Inserts r code next) : next.length = code.length + 1 := by
  obtain ⟨place, hplace, i, -, rfl⟩ := h
  exact List.length_insertIdx_of_le_length hplace i

/-- An operator either makes its edit or leaves the instructions as they are. -/
theorem Operated.cases {rate : Float} {tried fails : Prop} {edits : List Instruction → Prop}
    {c : Change} (h : Operated rate tried edits fails code c) :
    c.changed = true ∧ (tried ∧ CanShow rate true ∧ edits c.code) ∨
      c.changed = false ∧ c.code = code := by
  cases h with
  | edited htried hcoin h => exact .inl ⟨rfl, htried, hcoin, h⟩
  | failed => exact .inr ⟨rfl, rfl⟩
  | idle => exact .inr ⟨rfl, rfl⟩

variable {rate : Float} {c : Change}

theorem length_le_of_deleteOutcome (h : DeleteOutcome rate code c) :
    c.code.length ≤ code.length := by
  obtain ⟨-, -, -, h⟩ | ⟨-, h⟩ := h.cases
  · have hlength := h.length
    omega
  · rw [h]

theorem length_eq_of_alterOutcome (h : AlterOutcome rate r code c) :
    c.code.length = code.length := by
  obtain ⟨-, -, -, h⟩ | ⟨-, h⟩ := h.cases
  · exact h.length
  · rw [h]

theorem length_eq_of_swapOutcome (h : SwapOutcome rate code c) : c.code.length = code.length := by
  obtain ⟨-, -, -, h⟩ | ⟨-, h⟩ := h.cases
  · exact h.length
  · rw [h]

end frame

/-- A pass can come to all that its operators can come to in turn, and to nothing else. -/
theorem spans_pass {code : List Instruction} (rates : InstructionRates) (r : InstructionRanges)
    (hlength : code.length < UInt64.size) : (pass rates r code).Spans (Passes rates r code) := by
  have hall := (spans_deletePass rates.delete hlength).bind fun deleted hdelete =>
    have hdeleted := (length_le_of_deleteOutcome hdelete).trans_lt hlength
    (spans_changePass rates.change r hdeleted).bind fun altered halter =>
    have haltered := (length_eq_of_alterOutcome halter).trans_lt hdeleted
    (spans_swapPass rates.swap haltered).bind fun swapped hswap =>
    have hswapped := (length_eq_of_swapOutcome hswap).trans_lt haltered
    (spans_addPass rates.add r hswapped).then_pure fun inserted => (⟨deleted.changed ||
      altered.changed || swapped.changed || inserted.changed, inserted.code⟩ : Change)
  refine hall.congr fun c => ⟨?_, fun h => ?_⟩
  · rintro ⟨deleted, hdelete, altered, halter, swapped, hswap, inserted, hinsert, rfl⟩
    exact .inOrder hdelete halter hswap hinsert
  · cases h with
    | inOrder hdelete halter hswap hinsert =>
      exact ⟨_, hdelete, _, halter, _, hswap, _, hinsert, rfl⟩

end Program

end TangledPrograms
