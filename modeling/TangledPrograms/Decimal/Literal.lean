/-!
# Reading decimal numbers

`nearest` rounds a decimal to the nearest float. `scaled` is the coarser reading of documents: a
significand of at most 64 bits, times or divided by one power of ten. `parseFloat?` reads the number
texts of settings, `parseNatural?` their whole numbers.
-/

namespace TangledPrograms.Decimal

/-- The number `c · 10 ^ e`, rounded to the nearest float. Numbers far outside the range of floats
are settled without computing the power. -/
def nearest (c : Nat) (e : Int) : Float :=
  let place := (Nat.toDigits 10 c).length + e
  if c = 0 then 0
  else if place > 400 then 1.0 / 0.0
  else if place < -400 then 0
  else Float.ofScientific c (e < 0) e.natAbs

/-- The float `10 ^ n`. -/
def powerOfTen (n : Nat) : Float := Float.ofScientific 1 false n

/-- Divides by `10 ^ 308` until `10 ^ exponent` with `-308 ≤ exponent` is left to divide by; a zero
stays. -/
def divideSteps (x : Float) (magnitude : Nat) : Float :=
  if x == 0 then x
  else if 308 < magnitude then divideSteps (x / powerOfTen 308) (magnitude - 308)
  else x / powerOfTen magnitude
termination_by magnitude
decreasing_by omega

/-- The number `significand · 10 ^ exponent` by one rounding of the significand and one of the
product or quotient (more quotients below `10 ^ -308`); `none` beyond the largest float. -/
def scaled (significand : UInt64) (exponent : Int) : Option Float :=
  let x := significand.toFloat
  if exponent < 0 then some (divideSteps x exponent.natAbs)
  else if exponent ≤ 308 then
    let y := x * powerOfTen exponent.toNat
    if y.isInf then none else some y
  else if x == 0 then some x else none

def digitsValue (ds : List Char) : Nat := ds.foldl (fun n d => 10 * n + (d.toNat - '0'.toNat)) 0

/-- A whole number: digits after at most one plus sign, below `bound`. -/
def parseNatural? (bound : Nat) (text : List Char) : Option Nat :=
  let ds := if text.head? = some '+' then text.tail else text
  if ds.isEmpty || !ds.all Char.isDigit then none
  else
    let n := digitsValue ds
    if n < bound then some n else none

/-- The exponent after an `e`: digits after at most one sign. -/
def parseExponent? (text : List Char) : Option Int :=
  match text with
  | '-' :: ds => if ds.isEmpty || !ds.all Char.isDigit then none else some (-(digitsValue ds : Int))
  | '+' :: ds => if ds.isEmpty || !ds.all Char.isDigit then none else some (digitsValue ds)
  | ds => if ds.isEmpty || !ds.all Char.isDigit then none else some (digitsValue ds)

/-- A number without sign: digits with at most one point and at least one digit, and perhaps an
exponent; or the words for infinity and NaN in any case. -/
def parseUnsigned? (text : List Char) : Option Float :=
  let word := String.ofList (text.map Char.toLower)
  if word = "inf" || word = "infinity" then some (1.0 / 0.0)
  else if word = "nan" then some (0.0 / 0.0)
  else
    let whole := text.takeWhile Char.isDigit
    let afterWhole := text.dropWhile Char.isDigit
    let (places, rest) :=
      match afterWhole with
      | '.' :: tail => (tail.takeWhile Char.isDigit, tail.dropWhile Char.isDigit)
      | _ => ([], afterWhole)
    if whole.isEmpty && places.isEmpty then none
    else
      let value (e : Int) := nearest (digitsValue (whole ++ places)) (e - places.length)
      match rest with
      | [] => some (value 0)
      | c :: tail => if c = 'e' || c = 'E' then (parseExponent? tail).map value else none

/-- A number after at most one sign. -/
def parseFloat? (text : List Char) : Option Float :=
  match text with
  | '-' :: rest => (parseUnsigned? rest).map (fun x => -x)
  | '+' :: rest => parseUnsigned? rest
  | _ => parseUnsigned? text

end TangledPrograms.Decimal
