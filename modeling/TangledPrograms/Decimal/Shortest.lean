/-!
# Shortest decimals of binary floats

A finite float is `± significand · 2 ^ exponent`, and the reals that round to it form an interval,
closed when the significand is even. `shortest` finds the decimal with the fewest digits in that
interval, and among those the one nearest to the float: for one digit, two digits, and so on, the
only candidates are the two neighbours of the float on the grid of that many digits.
-/

namespace TangledPrograms.Decimal

/-- The absolute value of a finite float, `significand · 2 ^ exponent`. -/
structure Dyadic where
  significand : Nat
  exponent : Int
  /-- The float below is nearer than the float above. -/
  narrowBelow : Bool
  deriving DecidableEq, Repr

def isNegative (x : Float) : Bool := x.toBits >>> 63 == 1

/-- The absolute value of a float, read off its bits; infinities and NaN are not meant. -/
def dyadic (x : Float) : Dyadic :=
  let field := (x.toBits >>> 52 &&& 0x7ff).toNat
  let fraction := (x.toBits &&& 0xfffffffffffff).toNat
  if field = 0 then ⟨fraction, -1074, false⟩
  else ⟨fraction + 0x10000000000000, (field : Int) - 1075, fraction = 0 && field > 1⟩

/-- The decimal `coefficient · 10 ^ exponent`. -/
structure Scaled where
  coefficient : Nat
  exponent : Int
  deriving DecidableEq, Repr

/-- Which of two equally near decimals is taken. -/
inductive Tie where
  | toEven | up
  deriving DecidableEq, Repr

/-- The interval of reals that round to a float, in units that make its ends and the float whole:
the float is `value / unit`. -/
structure Interval where
  low : Nat
  value : Nat
  high : Nat
  unit : Nat
  closed : Bool
  deriving DecidableEq, Repr

/-- The reals that round to `d`: up to half a gap on each side. -/
def Dyadic.interval (d : Dyadic) : Interval :=
  let scale := 1 <<< d.exponent.toNat
  { low := (4 * d.significand - if d.narrowBelow then 1 else 2) * scale
    value := 4 * d.significand * scale
    high := (4 * d.significand + 2) * scale
    unit := 4 <<< (-d.exponent).toNat
    closed := d.significand % 2 = 0 }

/-- The same interval measured in steps of `10 ^ e`. -/
def Interval.inSteps (i : Interval) (e : Int) : Interval :=
  let grow := Nat.pow 10 (-e).toNat
  { i with
    low := i.low * grow
    value := i.value * grow
    high := i.high * grow
    unit := i.unit * Nat.pow 10 e.toNat }

/-- Whether the whole number `n` lies in the interval. -/
def Interval.holds (i : Interval) (n : Nat) : Bool :=
  if i.closed then i.low ≤ n * i.unit && n * i.unit ≤ i.high
  else i.low < n * i.unit && n * i.unit < i.high

/-- The neighbour of the float on the grid of whole numbers that lies in the interval; of two, the
nearer one. -/
def Interval.nearestWhole? (i : Interval) (tie : Tie) : Option Nat :=
  let below := i.value / i.unit
  let rest := i.value % i.unit
  match i.holds below, i.holds (below + 1) with
  | true, true =>
    if 2 * rest < i.unit then some below
    else if i.unit < 2 * rest then some (below + 1)
    else match tie with
      | .up => some (below + 1)
      | .toEven => some (if below % 2 = 0 then below else below + 1)
  | true, false => some below
  | false, true => some (below + 1)
  | false, false => none

/-- The least `k ≤ steps` such that `value · 10 ^ k` reaches `unit`, else `steps`. -/
def leadingZeros (value unit : Nat) : Nat → Nat
  | 0 => 0
  | steps + 1 => if unit ≤ value then 0 else leadingZeros (value * 10) unit steps + 1

/-- The place of the decimal point before the first digit of the interval's float: the least `p`
with `value / unit < 10 ^ p`, for floats that are not zero. -/
def Interval.pointPlace (i : Interval) : Int :=
  if i.unit ≤ i.value then ((Nat.toDigits 10 (i.value / i.unit)).length : Int)
  else 1 - (leadingZeros i.value i.unit 400 : Int)

/-- Drops trailing zeros of the coefficient, at most `steps` of them. -/
def Scaled.trim : Nat → Scaled → Scaled
  | 0, s => s
  | steps + 1, s =>
    if s.coefficient ≠ 0 ∧ s.coefficient % 10 = 0 then
      Scaled.trim steps ⟨s.coefficient / 10, s.exponent + 1⟩
    else s

/-- The first hit on the grids of `digits`, `digits + 1`, … digits, `steps` grids at most. -/
def Interval.search (i : Interval) (tie : Tie) (place : Int) : Nat → Nat → Scaled
  | _, 0 => ⟨0, 0⟩
  | digits, steps + 1 =>
    let e := place - digits
    match (i.inSteps e).nearestWhole? tie with
    | some n => ⟨n, e⟩
    | none => i.search tie place (digits + 1) steps

/-- The shortest decimal that rounds to the absolute value of a finite float. Seventeen digits are
always enough. -/
def shortest (tie : Tie) (x : Float) : Scaled :=
  let d := dyadic x
  if d.significand = 0 then ⟨0, 0⟩
  else
    let i := d.interval
    (i.search tie i.pointPlace 1 17).trim 17

end TangledPrograms.Decimal
