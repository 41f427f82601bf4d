import TangledPrograms.Reading

/-!
# Values as bytes

Whole numbers have a fixed width, lowest byte first. Texts, lists and maps are
preceded by their length in 64 bits. A variant is its number in 32 bits and then what it carries.
Everything has one form of fixed layout, and values stand one after the other without gaps.
-/

namespace TangledPrograms.Bytes

open Reader

/-- The lowest `width` bytes of a number, lowest first. -/
def littleEndian : Nat → Nat → List UInt8
  | 0, _ => []
  | width + 1, n => .ofNat n :: littleEndian width (n / 256)

def ofLittleEndian : List UInt8 → Nat
  | [] => 0
  | b :: rest => b.toNat + 256 * ofLittleEndian rest

def word32 (n : Nat) : List UInt8 := littleEndian 4 n

def word64 (n : Nat) : List UInt8 := littleEndian 8 n

def truth (b : Bool) : List UInt8 := [if b then 1 else 0]

def text (s : String) : List UInt8 := word64 s.utf8ByteSize ++ s.toUTF8.data.toList

def list {α : Type} (item : α → List UInt8) (xs : List α) : List UInt8 :=
  word64 xs.length ++ xs.flatMap item

def take (n : Nat) : Reader UInt8 (List UInt8) := fun s =>
  let front := s.take n
  if front.length = n then .ok (front, s.drop n) else .error .malformed

def readWord32 : Reader UInt8 Nat := do pure (ofLittleEndian (← take 4))

def readWord64 : Reader UInt8 Nat := do pure (ofLittleEndian (← take 8))

def readTruth : Reader UInt8 Bool := do
  match ← next with
  | 0 => pure false
  | 1 => pure true
  | _ => fail

def readText : Reader UInt8 String := do
  let bytes ← take (← readWord64)
  ofOption (String.fromUTF8? ⟨bytes.toArray⟩)

def readList {α : Type} (item : Reader UInt8 α) : Reader UInt8 (List α) := do
  times item (← readWord64)

end TangledPrograms.Bytes
