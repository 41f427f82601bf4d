/-!
# Numbers as they are kept

A number that is kept, and perhaps saved, is kept by its 64 bits. Arithmetic is done on `Float`, which
has a single NaN; the bits also tell one NaN from another, so that a number which nothing computes
with comes back as it went in.
-/

namespace TangledPrograms

/-- A number, by the bits of its binary form. -/
structure Binary64 where
  bits : UInt64
  deriving DecidableEq, Repr

namespace Binary64

def toFloat (x : Binary64) : Float := .ofBits x.bits

def ofFloat (x : Float) : Binary64 := ⟨x.toBits⟩

instance : OfScientific Binary64 :=
  ⟨fun mantissa negative exponent => ofFloat (.ofScientific mantissa negative exponent)⟩

/-- The NaN that arithmetic leaves of a NaN: the same one with the highest bit of its fraction set. -/
def quiet (x : Binary64) : Binary64 := ⟨x.bits ||| 0x8000000000000⟩

/-- The NaN that arithmetic makes of numbers without a sum: negative and quiet, all else clear. -/
def indefinite : Binary64 := ⟨0xfff8000000000000⟩

/-- The sum with a number that is not NaN. -/
def add (x : Binary64) (y : Float) : Binary64 :=
  if x.toFloat.isNaN then x.quiet
  else
    let sum := x.toFloat + y
    if sum.isNaN then indefinite else ofFloat sum

/-- Cut to `[0, 1]`; NaN and negative zero stay. -/
def clampUnit (x : Binary64) : Binary64 :=
  if x.toFloat < 0.0 then 0.0 else if 1.0 < x.toFloat then 1.0 else x

end Binary64

end TangledPrograms
