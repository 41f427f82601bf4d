/-!
# Hexadecimal text

Numbers of a fixed count of digits, with zeros in front where they have fewer, and bytes as two
lower-case digits each; reading takes either case.
-/

namespace TangledPrograms.Text

/-- The lowest `width` digits of `n`, highest first. -/
def fixedDigits (base : Nat) : Nat → Nat → List Char
  | 0, _ => []
  | width + 1, n => fixedDigits base width (n / base) ++ [Nat.digitChar (n % base)]

end TangledPrograms.Text

namespace TangledPrograms.Bytes

/-- The lowest `width` digits of a number, highest first. -/
def hexDigits (width n : Nat) : List Char := Text.fixedDigits 16 width n

def hexValue? (c : Char) : Option Nat :=
  if c.isDigit then some (c.toNat - '0'.toNat)
  else if 'a' ≤ c && c ≤ 'f' then some (c.toNat - 'a'.toNat + 10)
  else if 'A' ≤ c && c ≤ 'F' then some (c.toNat - 'A'.toNat + 10)
  else none

def hexNumber? (ds : List Char) : Option Nat :=
  ds.foldlM (fun n d => (hexValue? d).map (16 * n + ·)) 0

def hexByte (b : UInt8) : List Char := hexDigits 2 b.toNat

def hex (bs : List UInt8) : String := String.ofList (bs.flatMap hexByte)

def ofHex? : List Char → Option (List UInt8)
  | [] => some []
  | [_] => none
  | a :: b :: rest => do pure (.ofNat (← hexNumber? [a, b]) :: (← ofHex? rest))

end TangledPrograms.Bytes
