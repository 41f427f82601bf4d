import TangledPrograms.Bytes.Hex

/-!
# Time stamps

A time stamp is a moment that is written and read in some format. The format is a parameter of all
that is saved. One format has the seconds of the Gregorian calendar in universal time, written as
`YYYY-MM-DDTHH:MM:SSZ`.
-/

namespace TangledPrograms

/-- A kind of moments, how they are written, and the moments that texts are read as. -/
structure TimeFormat where
  Moment : Type
  text : Moment → String
  ofText? : String → Option Moment

/-- A moment of a format. -/
structure Timestamp (F : TimeFormat) where
  moment : F.Moment

/-- A second of the calendar; the sixtieth second of a minute is a leap second. -/
structure CalendarSecond where
  year : Nat
  month : Nat
  day : Nat
  hour : Nat
  minute : Nat
  second : Nat
  deriving DecidableEq, Repr

namespace CalendarSecond

def isLeap (year : Nat) : Bool := year % 4 = 0 && (year % 100 ≠ 0 || year % 400 = 0)

/-- The number of days of a month; none for a month that does not exist. -/
def daysIn (year month : Nat) : Nat :=
  match month with
  | 1 | 3 | 5 | 7 | 8 | 10 | 12 => 31
  | 4 | 6 | 9 | 11 => 30
  | 2 => if isLeap year then 29 else 28
  | _ => 0

def valid (t : CalendarSecond) : Bool :=
  t.year < 10000 && 1 ≤ t.day && t.day ≤ daysIn t.year t.month && t.hour < 24 && t.minute < 60 &&
    t.second ≤ 60

/-- The last `width` decimal digits of a number. -/
def digits (width n : Nat) : List Char := Text.fixedDigits 10 width n

def chars (t : CalendarSecond) : List Char :=
  digits 4 t.year ++ '-' :: digits 2 t.month ++ '-' :: digits 2 t.day ++ 'T' :: digits 2 t.hour ++
    ':' :: digits 2 t.minute ++ ':' :: digits 2 t.second ++ ['Z']

def text (t : CalendarSecond) : String := String.ofList t.chars

def number? (ds : List Char) : Option Nat :=
  if ds.all Char.isDigit then some (ds.foldl (fun n d => 10 * n + (d.toNat - '0'.toNat)) 0)
  else none

def ofChars? : List Char → Option CalendarSecond
  | [y₁, y₂, y₃, y₄, '-', o₁, o₂, '-', d₁, d₂, 'T', h₁, h₂, ':', m₁, m₂, ':', s₁, s₂, 'Z'] => do
    let t : CalendarSecond :=
      { year := ← number? [y₁, y₂, y₃, y₄]
        month := ← number? [o₁, o₂]
        day := ← number? [d₁, d₂]
        hour := ← number? [h₁, h₂]
        minute := ← number? [m₁, m₂]
        second := ← number? [s₁, s₂] }
    if t.valid then some t else none
  | _ => none

def ofText? (s : String) : Option CalendarSecond := ofChars? s.toList

end CalendarSecond

def TimeFormat.seconds : TimeFormat := ⟨CalendarSecond, CalendarSecond.text, CalendarSecond.ofText?⟩

@[simp] theorem TimeFormat.text_seconds (t : CalendarSecond) :
    TimeFormat.seconds.text t = t.text := rfl

@[simp] theorem TimeFormat.ofText?_seconds (s : String) :
    TimeFormat.seconds.ofText? s = CalendarSecond.ofText? s := rfl

namespace Timestamp

variable {F : TimeFormat}

def epoch : Timestamp .seconds := ⟨(⟨1970, 1, 1, 0, 0, 0⟩ : CalendarSecond)⟩

def text (t : Timestamp F) : String := F.text t.moment

def ofText? (s : String) : Option (Timestamp F) := (F.ofText? s).map .mk

def Legible (t : Timestamp F) : Prop := ofText? t.text = some t

end Timestamp

end TangledPrograms
