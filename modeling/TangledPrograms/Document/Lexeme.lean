import TangledPrograms.Reading
import TangledPrograms.Bytes.Hex
import TangledPrograms.Decimal.Literal

/-!
# The words of JSON

Blanks, literals, numbers and texts. A number keeps as many digits as a 64-bit significand holds;
later digits only move the point. Whole numbers that fit 64 bits stay whole. `skipValue` reads over a
value whose meaning does not matter and checks its form only.
-/

namespace TangledPrograms.Document

open Reader

def isBlank (c : Char) : Bool := c = ' ' || c = '\n' || c = '\t' || c = '\r'

def skipBlanks : Reader Char Unit := fun s => .ok ((), s.dropWhile isBlank)

def word (cs : List Char) : Reader Char Unit := fun s =>
  if cs.isPrefixOf s then .ok ((), s.drop cs.length) else .error .malformed

def expect (c : Char) : Reader Char Unit := do
  skipBlanks
  word [c]

/-- Reads over blanks, and over the given character if it comes next; tells whether it did. -/
def accept (c : Char) : Reader Char Bool := do
  skipBlanks
  if (← peek?) = some c then
    let _ ← next
    pure true
  else pure false

/-- A number: whole and not negative, whole and negative, or any other. -/
inductive Numeral where
  | natural (n : Nat)
  | negative (n : Nat)
  | real (x : Float)

/-- Reads digits into a significand while it fits 64 bits; gives it with the number of digits
read. -/
def significandDigits (s n : Nat) : List Char → Nat × Nat × List Char
  | [] => (s, n, [])
  | c :: rest =>
    let s' := 10 * s + (c.toNat - '0'.toNat)
    if c.isDigit && s' < UInt64.size then significandDigits s' (n + 1) rest else (s, n, c :: rest)

/-- Reads over digits; gives their number. -/
def countDigits : Reader Char Nat := fun s =>
  .ok ((s.takeWhile Char.isDigit).length, s.dropWhile Char.isDigit)

/-- The digits of a whole part: no leading zeros. Gives the significand and the number of digits that
it does not hold. -/
def wholePart : Reader Char (Nat × Nat) := do
  match ← next with
  | '0' =>
    if (← peek?).any Char.isDigit then fail else pure (0, 0)
  | c =>
    if c.isDigit then
      let (s, _, rest) := significandDigits (c.toNat - '0'.toNat) 1 (← get)
      set rest
      pure (s, ← countDigits)
    else fail

/-- The digits after a point, at least one; further digits of the significand and the number of
places they take. -/
def places (s : Nat) : Reader Char (Nat × Nat) := do
  let (s, n, rest) := significandDigits s 0 (← get)
  set rest
  let dropped ← countDigits
  if n + dropped = 0 then fail else pure (s, n)

/-- The power of ten after an `e`: digits after at most one sign. -/
def power : Reader Char Int := do
  let negative ← match ← peek? with
    | some '-' => do
      let _ ← next
      pure true
    | some '+' => do
      let _ ← next
      pure false
    | _ => pure false
  let ds := (← get).takeWhile Char.isDigit
  let _ ← countDigits
  if ds.isEmpty then fail
  else
    let n : Int := Decimal.digitsValue ds
    pure (if negative then -n else n)

def realNumeral (negative : Bool) (s : Nat) (e : Int) : Reader Char Numeral := do
  let x ← ofOption (Decimal.scaled (.ofNat s) e)
  pure (.real (if negative then -x else x))

/-- A whole number, from its parts; what does not fit 64 bits is not whole, nor is negative zero. -/
def wholeNumeral (negative : Bool) (s dropped : Nat) : Reader Char Numeral :=
  if dropped ≠ 0 then realNumeral negative s dropped
  else if !negative then pure (.natural s)
  else if s = 0 || UInt64.size / 2 < s then realNumeral true s 0
  else pure (.negative s)

def unsignedNumeral (negative : Bool) : Reader Char Numeral := do
  let (s, dropped) ← wholePart
  match ← peek? with
  | some '.' =>
    let _ ← next
    let (s, n) ← places s
    let e : Int := dropped - n
    match ← peek? with
    | some 'e' | some 'E' =>
      let _ ← next
      realNumeral negative s (e + (← power))
    | _ => realNumeral negative s e
  | some 'e' | some 'E' =>
    let _ ← next
    realNumeral negative s (dropped + (← power))
  | _ => wholeNumeral negative s dropped

def numeral : Reader Char Numeral := do
  skipBlanks
  let negative := (← peek?) = some '-'
  if negative then
    let _ ← next
  unsignedNumeral negative

def hexUnit : Reader Char Nat := do
  let a ← next
  let b ← next
  let c ← next
  let d ← next
  ofOption (Bytes.hexNumber? [a, b, c, d])

/-- The character of a code unit; a leading surrogate needs its trailing one. -/
def unicodeChar : Reader Char Char := do
  let lead ← hexUnit
  if 0xdc00 ≤ lead && lead < 0xe000 then fail
  else if 0xd800 ≤ lead && lead < 0xdc00 then
    word ['\\', 'u']
    let trail ← hexUnit
    if 0xdc00 ≤ trail && trail < 0xe000 then
      pure (Char.ofNat (0x10000 + (lead - 0xd800) * 0x400 + (trail - 0xdc00)))
    else fail
  else pure (Char.ofNat lead)

def shortEscape? : Char → Option Char
  | '"' => some '"'
  | '\\' => some '\\'
  | '/' => some '/'
  | 'b' => some (Char.ofNat 8)
  | 'f' => some (Char.ofNat 12)
  | 'n' => some '\n'
  | 'r' => some '\r'
  | 't' => some '\t'
  | _ => none

def escaped : Reader Char Char := do
  let c ← next
  if c = 'u' then unicodeChar else ofOption (shortEscape? c)

/-- The characters up to a closing quotation mark; `fuel` bounds their number. -/
def textEnd : List Char → Reader Char (List Char)
  | [] => fail
  | _ :: fuel => do
    let c ← next
    if c = '"' then pure []
    else if c = '\\' then
      let c ← escaped
      pure (c :: (← textEnd fuel))
    else if c.toNat < 32 then fail
    else pure (c :: (← textEnd fuel))

def quoted : Reader Char String := do
  expect '"'
  pure (String.ofList (← textEnd (← remaining)))

/-- Reads over what is left of a text; `fuel` bounds its length. -/
def skipTextEnd : List Char → Reader Char Unit
  | [] => fail
  | _ :: fuel => do
    let c ← next
    if c = '"' then pure ()
    else if c = '\\' then
      let e ← next
      if e = 'u' then
        let _ ← hexUnit
      else
        let _ ← ofOption (shortEscape? e)
      skipTextEnd fuel
    else if c.toNat < 32 then fail
    else skipTextEnd fuel

def skipNumber : Reader Char Unit := do
  if (← peek?) = some '-' then
    let _ ← next
  let _ ← wholePart
  if (← peek?) = some '.' then
    let _ ← next
    if (← countDigits) = 0 then fail
  if (← peek?) = some 'e' || (← peek?) = some 'E' then
    let _ ← next
    let _ ← power

def skipName : Reader Char Unit := do
  expect '"'
  skipTextEnd (← remaining)
  expect ':'

mutual

/-- Reads over a value; `fuel` bounds its size. -/
def skipValueIn : List Char → Reader Char Unit
  | [] => fail
  | _ :: fuel => do
    skipBlanks
    match ← peek? with
    | some '[' =>
      let _ ← next
      if ← accept ']' then pure ()
      else
        skipValueIn fuel
        skipRestIn fuel ']'
    | some '\x7b' =>
      let _ ← next
      if ← accept '\x7d' then pure ()
      else
        skipName
        skipValueIn fuel
        skipRestIn fuel '\x7d'
    | some '"' =>
      let _ ← next
      skipTextEnd (← remaining)
    | some 't' => word "true".toList
    | some 'f' => word "false".toList
    | some 'n' => word "null".toList
    | _ => skipNumber

def skipRestIn : List Char → Char → Reader Char Unit
  | [], _ => fail
  | _ :: fuel, close => do
    if ← accept close then pure ()
    else
      expect ','
      if close = '\x7d' then skipName
      skipValueIn fuel
      skipRestIn fuel close

end

def skipValue : Reader Char Unit := do skipValueIn (← remaining)

end TangledPrograms.Document
