import TangledPrograms.Bytes.Hex
import TangledPrograms.Proofs.Bytes.Reads

/-!
# Reading only what would be written

There is one form for every value: the bytes that a reader takes for a number, a text or a run of
bytes are those that it is written with, so nothing about them can be altered without a different
value. Likewise the digits of bytes tell the bytes.
-/

namespace TangledPrograms

/-- A reader that goes on has read its first value. -/
theorem Reader.ok_of_bind {σ α β : Type} {r : Reader σ α} {f : α → Reader σ β} {s rest : List σ}
    {b : β} (h : (r >>= f) s = .ok (b, rest)) : ∃ a s', r s = .ok (a, s') ∧ f a s' = .ok (b, rest) := by
  change (r s).bind (fun x => f x.1 x.2) = _ at h
  cases hr : r s with
  | error e =>
    rw [hr] at h
    cases h
  | ok x =>
    rw [hr] at h
    exact ⟨x.1, x.2, rfl, h⟩

/-- A reader that fails does so at its first value or behind it. -/
theorem Reader.error_of_bind {σ α β : Type} {r : Reader σ α} {f : α → Reader σ β} {s : List σ}
    {e : ReadFailure} (h : (r >>= f) s = .error e) :
    r s = .error e ∨ ∃ a s', r s = .ok (a, s') ∧ f a s' = .error e := by
  change (r s).bind (fun x => f x.1 x.2) = _ at h
  cases hr : r s with
  | error e' =>
    rw [hr] at h
    cases h
    exact .inl rfl
  | ok x =>
    rw [hr] at h
    exact .inr ⟨x.1, x.2, rfl, h⟩

namespace Bytes

variable {s rest : List UInt8}

theorem littleEndian_ofLittleEndian : ∀ bytes : List UInt8,
    littleEndian bytes.length (ofLittleEndian bytes) = bytes
  | [] => rfl
  | b :: bytes => by
    have hb := b.toNat_lt
    have hlow : UInt8.ofNat (b.toNat + 256 * ofLittleEndian bytes) = b := by
      rw [← UInt8.toNat_inj, UInt8.toNat_ofNat']
      omega
    have hhigh : (b.toNat + 256 * ofLittleEndian bytes) / 256 = ofLittleEndian bytes := by omega
    rw [List.length_cons, ofLittleEndian, littleEndian, hlow, hhigh, littleEndian_ofLittleEndian]

theorem ofLittleEndian_lt : ∀ bytes : List UInt8, ofLittleEndian bytes < 256 ^ bytes.length
  | [] => Nat.one_pos
  | b :: bytes => by
    have hb := b.toNat_lt
    have hrest := ofLittleEndian_lt bytes
    rw [ofLittleEndian, List.length_cons, Nat.pow_succ]
    omega

theorem eq_of_take {n : Nat} {bytes : List UInt8} (h : take n s = .ok (bytes, rest)) :
    s = bytes ++ rest ∧ bytes.length = n := by
  simp only [take] at h
  split at h
  · rename_i hlength
    cases h
    exact ⟨(List.take_append_drop n s).symm, hlength⟩
  · cases h

theorem malformed_of_take {n : Nat} {e : ReadFailure} (h : take n s = .error e) : e = .malformed := by
  simp only [take] at h
  split at h
  · cases h
  · cases h
    rfl

theorem malformed_of_readWord64 {e : ReadFailure} (h : readWord64 s = .error e) : e = .malformed := by
  obtain htake | ⟨_, _, _, hpure⟩ := Reader.error_of_bind h
  · exact malformed_of_take htake
  · cases hpure

theorem eq_of_readWord64 {n : Nat} (h : readWord64 s = .ok (n, rest)) :
    s = word64 n ++ rest ∧ n < 2 ^ 64 := by
  obtain ⟨bytes, s', htake, hn⟩ := Reader.ok_of_bind h
  obtain ⟨hs, hlength⟩ := eq_of_take htake
  cases hn
  have hwritten := littleEndian_ofLittleEndian bytes
  have hbound := ofLittleEndian_lt bytes
  rw [hlength] at hwritten hbound
  exact ⟨by rw [hs, word64, hwritten], hbound⟩

/-- Bytes that are a text are the bytes of the text. -/
theorem eq_of_fromUTF8? {bytes : List UInt8} {c : String}
    (h : String.fromUTF8? ⟨bytes.toArray⟩ = some c) : c.toUTF8.data.toList = bytes := by
  simp only [String.fromUTF8?] at h
  split at h
  · cases h
    rfl
  · cases h

theorem length_hexByte (b : UInt8) : (hexByte b).length = 2 := rfl

theorem hexByte_injective : Function.Injective hexByte := by
  have hread : ∀ n < 256, hexNumber? (hexDigits 2 n) = some n := by decide +kernel
  intro a b h
  have ha := hread _ a.toNat_lt
  have hb := hread _ b.toNat_lt
  simp only [hexByte] at h
  rw [h, hb] at ha
  exact UInt8.toNat_inj.1 (Option.some.inj ha).symm

theorem flatMap_hexByte_injective : ∀ {as bs : List UInt8},
    as.flatMap hexByte = bs.flatMap hexByte → as = bs
  | [], [], _ => rfl
  | [], b :: bs, h => by simp [hexByte, hexDigits, Text.fixedDigits] at h
  | a :: as, [], h => by simp [hexByte, hexDigits, Text.fixedDigits] at h
  | a :: as, b :: bs, h => by
    rw [List.flatMap_cons, List.flatMap_cons] at h
    obtain ⟨hhead, htail⟩ := List.append_inj h (by rw [length_hexByte, length_hexByte])
    rw [hexByte_injective hhead, flatMap_hexByte_injective htail]

theorem hex_injective : Function.Injective hex := fun _ _ h =>
  flatMap_hexByte_injective (String.ofList_injective h)

end Bytes

end TangledPrograms
