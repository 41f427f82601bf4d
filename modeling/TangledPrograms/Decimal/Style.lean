import TangledPrograms.Decimal.Shortest

/-!
# Writing floats

How the digits of a float are laid out is a `Style`. There are two: messages never use an exponent
and keep no decimal places on whole numbers; documents use an exponent for very large and very
small numbers and always show that a number is not an integer.
-/

namespace TangledPrograms.Decimal

/-- How a float is written. The *place* of its point counts from before the first digit. -/
structure Style where
  /-- Places that are written without an exponent. -/
  positional : Int → Bool
  /-- Whole numbers end in `.0`. -/
  keepPoint : Bool
  /-- Which of two equally near shortest decimals is taken. -/
  tie : Tie

/-- Messages: never an exponent, no places on whole numbers. -/
def messageStyle : Style := ⟨fun _ => true, false, .up⟩

/-- Documents: an exponent from `10 ^ 16` up and below `10 ^ -5`, and at least one place. -/
def documentStyle : Style := ⟨fun place => -4 ≤ place && place ≤ 16, true, .toEven⟩

/-- Digits with the point at `place`, without an exponent. -/
def positionalText (style : Style) (digits : List Char) (place : Int) : List Char :=
  if place ≤ 0 then '0' :: '.' :: (List.replicate (-place).toNat '0' ++ digits)
  else
    let whole := place.toNat
    if digits.length ≤ whole then
      digits ++ List.replicate (whole - digits.length) '0' ++
        (if style.keepPoint then ['.', '0'] else [])
    else digits.take whole ++ '.' :: digits.drop whole

/-- Digits with the point after the first one, and the power of ten after an `e` with its sign. -/
def scientificText (digits : List Char) (place : Int) : List Char :=
  let power := place - 1
  let mantissa :=
    match digits with
    | [] => []
    | [d] => [d]
    | d :: rest => d :: '.' :: rest
  mantissa ++ ['e', if power < 0 then '-' else '+'] ++ Nat.toDigits 10 power.natAbs

def finiteText (style : Style) (x : Float) : List Char :=
  let s := shortest style.tie x
  let body :=
    if s.coefficient = 0 then '0' :: (if style.keepPoint then ['.', '0'] else [])
    else
      let digits := Nat.toDigits 10 s.coefficient
      let place := digits.length + s.exponent
      if style.positional place then positionalText style digits place
      else scientificText digits place
  if isNegative x then '-' :: body else body

def messageText (x : Float) : String :=
  if x.isNaN then "NaN"
  else if x.isInf then (if isNegative x then "-inf" else "inf")
  else String.ofList (finiteText messageStyle x)

end TangledPrograms.Decimal
