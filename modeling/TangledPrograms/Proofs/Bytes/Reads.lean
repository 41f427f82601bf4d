import Mathlib
import TangledPrograms.Bytes.Codec

/-!
# Reading what was written

A reader reads a value off some bytes if it takes exactly these bytes, whatever stands behind them.
Written numbers that fit their width, texts and lists are read back.
-/

namespace TangledPrograms

/-- The reader takes the symbols and gives the value, whatever comes after them. -/
def Reads {σ α : Type} (r : Reader σ α) (symbols : List σ) (a : α) : Prop :=
  ∀ rest, r (symbols ++ rest) = .ok (a, rest)

namespace Reads

variable {σ α β : Type} {r : Reader σ α} {xs ys : List σ} {a : α} {b : β}

theorem pure (a : α) : Reads (Pure.pure a : Reader σ α) [] a := fun _ => rfl

theorem bind {f : α → Reader σ β} (h : Reads r xs a) (hf : Reads (f a) ys b) :
    Reads (r >>= f) (xs ++ ys) b := fun rest => by
  change (r (xs ++ ys ++ rest)).bind (fun x => f x.1 x.2) = _
  rw [List.append_assoc, h]
  exact hf rest

/-- What follows reads nothing. -/
theorem finish {f : α → Reader σ β} (h : Reads r xs a) (hf : f a = Pure.pure b) :
    Reads (r >>= f) xs b := by
  have hb : Reads (f a) [] b := hf ▸ pure b
  simpa using h.bind hb

theorem map {f : α → β} (h : Reads r xs a) : Reads (do Pure.pure (f (← r))) xs (f a) :=
  h.finish rfl

theorem times {item : Reader σ α} {write : β → List σ} {read : β → α} : ∀ {bs : List β},
    (∀ b ∈ bs, Reads item (write b) (read b)) →
    Reads (Reader.times item bs.length) (bs.flatMap write) (bs.map read)
  | [], _ => pure []
  | b :: bs, h => by
    have hrest := times fun c hc => h c (List.mem_cons_of_mem _ hc)
    rw [List.flatMap_cons]
    exact (h b List.mem_cons_self).bind hrest.map

end Reads

namespace Bytes

theorem length_littleEndian : ∀ width n, (littleEndian width n).length = width
  | 0, _ => rfl
  | width + 1, n => congrArg (· + 1) (length_littleEndian width (n / 256))

theorem ofLittleEndian_littleEndian : ∀ {width n : Nat}, n < 256 ^ width →
    ofLittleEndian (littleEndian width n) = n
  | 0, n, h => by
    have : n = 0 := by simpa using h
    subst this
    rfl
  | width + 1, n, h => by
    have hn : n / 256 < 256 ^ width := by
      rw [Nat.pow_succ] at h
      exact Nat.div_lt_of_lt_mul (by rwa [Nat.mul_comm])
    rw [littleEndian, ofLittleEndian, ofLittleEndian_littleEndian hn, UInt8.toNat_ofNat']
    exact Nat.mod_add_div n 256

theorem reads_take (bytes : List UInt8) : Reads (take bytes.length) bytes bytes := fun rest => by
  simp [take]

theorem reads_word32 {n : Nat} (h : n < 2 ^ 32) : Reads readWord32 (word32 n) n := by
  have htake := reads_take (word32 n)
  rw [word32, length_littleEndian] at htake
  have hmap := htake.map (f := ofLittleEndian)
  rwa [ofLittleEndian_littleEndian h] at hmap

theorem reads_word64 {n : Nat} (h : n < 2 ^ 64) : Reads readWord64 (word64 n) n := by
  have htake := reads_take (word64 n)
  rw [word64, length_littleEndian] at htake
  have hmap := htake.map (f := ofLittleEndian)
  rwa [ofLittleEndian_littleEndian h] at hmap

theorem reads_truth : ∀ b : Bool, Reads readTruth (truth b) b
  | true, _ => rfl
  | false, _ => rfl

theorem length_toUTF8 (s : String) : s.toUTF8.data.toList.length = s.utf8ByteSize :=
  Array.length_toList

theorem fromUTF8?_toUTF8 (s : String) :
    String.fromUTF8? ⟨s.toUTF8.data.toList.toArray⟩ = some s := by
  simp only [Array.toArray_toList, String.fromUTF8?, String.toUTF8_eq_toByteArray,
    dif_pos s.isValidUTF8]
  rfl

theorem reads_text {s : String} (h : s.utf8ByteSize < 2 ^ 64) : Reads readText (text s) s := by
  refine (reads_word64 h).bind ?_
  have htake := reads_take s.toUTF8.data.toList
  rw [length_toUTF8] at htake
  exact htake.finish (by rw [fromUTF8?_toUTF8]; rfl)

/-- A list is read back if its length fits and every item is read back. -/
theorem reads_list {α β : Type} {item : Reader UInt8 α} {write : β → List UInt8} {read : β → α}
    {bs : List β} (hlength : bs.length < 2 ^ 64) (h : ∀ b ∈ bs, Reads item (write b) (read b)) :
    Reads (readList item) (list write bs) (bs.map read) :=
  (reads_word64 hlength).bind (.times h)

end Bytes

end TangledPrograms
