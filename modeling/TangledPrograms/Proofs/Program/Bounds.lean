import TangledPrograms.Proofs.Program.Mutation
import TangledPrograms.Proofs.Random.Spans

/-!
# Random programs lie within their ranges

The fields of a random instruction can be all values below their ranges and no others, where a range of
zero counts as one. So a random program has its length and its fields within bounds.
-/

namespace TangledPrograms

open Draw

def Instruction.InRange (r : InstructionRanges) (i : Instruction) : Prop :=
  ∀ f, i.get f < f.range r

/-- There is a value for every field, and room for an instruction. -/
structure InstructionRanges.Positive (r : InstructionRanges) : Prop where
  range : ∀ f : Field, 0 < f.range r
  maxLength : 0 < r.maxLength

theorem toNat_max_one (n : UInt32) : (max n 1).toNat = max n.toNat 1 := by
  change (if n ≤ 1 then 1 else n).toNat = _
  split <;> rename_i h <;> rw [UInt32.le_iff_toNat_le, UInt32.toNat_one] at h
  · rw [UInt32.toNat_one, Nat.max_eq_right h]
  · rw [Nat.max_eq_left (by omega)]

theorem InstructionRanges.positive_ofSettings (s : ProgramSettings) :
    (ofSettings s).Positive where
  range f := by
    have hmax : ∀ n : UInt32, 0 < max n 1 := by
      intro n
      rw [UInt32.lt_iff_toNat_lt, toNat_max_one]
      exact Nat.le_max_right ..
    cases f with
    | mode | destShared | sourceShared => exact (by decide : (0 : UInt32) < 2)
    | operation => exact (by decide : 0 < operationCount)
    | dest => exact hmax _
    | source => exact hmax _
  maxLength := Nat.le_max_right ..

theorem InstructionRanges.Positive.max_range {r : InstructionRanges} (hr : r.Positive) (f : Field) :
    max (f.range r) 1 = f.range r := by
  have hpos : 0 < (f.range r).toNat := UInt32.lt_iff_toNat_lt.1 (hr.range f)
  rw [← UInt32.toNat_inj, toNat_max_one, Nat.max_eq_left hpos]

namespace Instruction

variable {r : InstructionRanges}

/-- Every field lies below its range, where a range of zero counts as one. -/
def Sampled (r : InstructionRanges) (i : Instruction) : Prop := ∀ f, i.get f < max (f.range r) 1

theorem sampled_iff (hr : r.Positive) {i : Instruction} : i.Sampled r ↔ i.InRange r := by
  simp only [Sampled, InRange, hr.max_range]

theorem spans_drawField (r : InstructionRanges) (f : Field) :
    (drawField r f).Spans (· < max (f.range r) 1) := by
  have hsize := (max (f.range r) 1).toNat_lt
  refine ((spans_below (w := .word32) (range_ne_zero r f) (Nat.le_of_lt hsize)).then_pure
    UInt32.ofNat).congr fun v => ⟨?_, fun hv => ?_⟩
  · rintro ⟨i, hi, rfl⟩
    rw [UInt32.lt_iff_toNat_lt, UInt32.toNat_ofNat_of_lt' (hi.trans hsize)]
    exact hi
  · exact ⟨v.toNat, UInt32.lt_iff_toNat_lt.1 hv, UInt32.ofNat_toNat.symm⟩

/-- A random instruction can be any whose fields lie below their ranges, and no other. -/
theorem spans_random (r : InstructionRanges) : (random r).Spans (Sampled r) := by
  have hfield := spans_drawField r
  have hall := (hfield .mode).bind fun mode _ => (hfield .operation).bind fun operation _ =>
    (hfield .destShared).bind fun destShared _ => (hfield .dest).bind fun dest _ =>
    (hfield .sourceShared).bind fun sourceShared _ => (hfield .source).then_pure
      (Instruction.mk mode operation destShared dest sourceShared)
  refine hall.congr fun i => ⟨?_, fun h => ?_⟩
  · rintro ⟨mode, h₁, operation, h₂, destShared, h₃, dest, h₄, sourceShared, h₅, source, h₆, rfl⟩ f
    cases f <;> assumption
  · exact ⟨_, h .mode, _, h .operation, _, h .destShared, _, h .dest, _, h .sourceShared, _,
      h .source, rfl⟩

theorem ensures_random (hr : r.Positive) : (random r).Ensures (InRange r) :=
  (spans_random r).sound.mono fun _ => (sampled_iff hr).1

end Instruction

namespace Program

/-- One instruction up to as many as the ranges allow, with all their fields in range. -/
structure Bounded (r : InstructionRanges) (code : List Instruction) : Prop where
  length_pos : 0 < code.length
  length_le : code.length ≤ r.maxLength
  inRange : ∀ i ∈ code, i.InRange r

variable {r : InstructionRanges} {code : List Instruction}

theorem ensures_random (hr : r.Positive) (id : ProgramId) :
    (random id r).Ensures fun p => Bounded r p.code := by
  have hlength : max r.maxLength 1 = r.maxLength := Nat.max_eq_left hr.maxLength
  have hne : r.maxLength ≠ 0 := hr.maxLength.ne'
  simp only [random, hlength]
  refine (yields_below hne).ensures.bind fun length hlt => ?_
  have hall := Meets.mapM (fun _ => (Instruction.ensures_random hr).meets)
    (List.replicate (length + 1) ())
  refine hall.ensures.bind fun code ⟨hcount, hcode⟩ => .pure ?_
  rw [List.length_replicate] at hcount
  exact ⟨hcount ▸ Nat.succ_pos _, hcount ▸ hlt, hcode⟩

end Program

end TangledPrograms
