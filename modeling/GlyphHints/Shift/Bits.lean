import GlyphHints.Shift

/-!
# Shifts as binary64 numbers

Shifts are exact rationals here. What remains of binary64 is its precision and its words. A sum
or an integer that needs more than 53 significant bits is rounded to the nearest number that does
not, and a tie goes to the even neighbour. The exponent range plays no part in rounding; only
`decompose` stops at the smallest exponent a stored number can have.

A stored shift has a sign bit, eleven bits of biased exponent and a fraction of 52 bits.
`toBits` inverts `ofBits` on every word; a rational that no word stands for is not among
its intended arguments, and loses the bits that do not fit.
-/
namespace GlyphHints

/-! ## Rounding -/

namespace Rounding

/-- The integer `k` with `2 ^ k ≤ a < 2 ^ (k + 1)`, for positive `a`. -/
def floorLog2 (a : Rat) : Int :=
  let k : Int := (a.num.natAbs.log2 : Int) - (a.den.log2 : Int)
  if (2 : Rat) ^ k ≤ a then k else k - 1

/-- The nearest integer, a half going to the even neighbour. -/
def nearestEven (a : Rat) : Int :=
  let below := a.floor
  let excess := a - (below : Rat)
  if excess < 1 / 2 then below
  else if 1 / 2 < excess then below + 1
  else if below % 2 = 0 then below
  else below + 1

/-- The nearest rational of at most 53 significant bits. -/
def toPrecision (a : Rat) : Rat :=
  if a = 0 then 0
  else
    let unit : Int := floorLog2 a.abs - 52
    (nearestEven (a / (2 : Rat) ^ unit) : Rat) * (2 : Rat) ^ unit

/-- The integer part, dropping any fraction. -/
def truncate (a : Rat) : Int :=
  if a < 0 then -((-a).floor) else a.floor

/-- Significand and exponent of a positive number of at most 53 significant bits:
`a = m * 2 ^ e`, where `m` has 53 bits unless `e` is the smallest exponent. -/
def decompose (a : Rat) : Nat × Int :=
  let e := max (floorLog2 a - 52) (-1074)
  ((a / (2 : Rat) ^ e).floor.toNat, e)

end Rounding

/-! ## Words -/

namespace Shift

/-- `2 ^ 52`, the weight of the hidden bit. -/
def hiddenBit : Nat := Nat.pow 2 52

def ofBits (word : UInt64) : Shift :=
  let bits := word.toNat
  let negative := bits / Nat.pow 2 63 = 1
  let exponent := bits / hiddenBit % 2048
  let fraction := bits % hiddenBit
  let signed (magnitude : Rat) : Shift := pixels (if negative then -magnitude else magnitude)
  if exponent = 2047 then
    if fraction = 0 then infinite negative else nan negative fraction
  else if exponent = 0 then
    if fraction = 0 then if negative then negativeZero else pixels 0
    else signed ((fraction : Rat) * (2 : Rat) ^ (-1074 : Int))
  else signed (((hiddenBit + fraction : Nat) : Rat) * (2 : Rat) ^ ((exponent : Int) - 1075))

def signBit (negative : Bool) : Nat := if negative then Nat.pow 2 63 else 0

def toBits : Shift → UInt64
  | pixels q =>
    if q = 0 then 0
    else
      let (significand, exponent) := Rounding.decompose q.abs
      let magnitude :=
        if significand < hiddenBit then significand
        else (exponent + 1075).toNat * hiddenBit + (significand - hiddenBit)
      UInt64.ofNat (signBit (q < 0) + magnitude)
  | negativeZero => UInt64.ofNat (signBit true)
  | infinite negative => UInt64.ofNat (signBit negative + 2047 * hiddenBit)
  | nan negative payload => UInt64.ofNat (signBit negative + 2047 * hiddenBit + payload)

end Shift

end GlyphHints
