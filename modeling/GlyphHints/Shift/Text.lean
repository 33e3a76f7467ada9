import GlyphHints.Shift.Bits

/-!
# Shifts in texts

A shift is written with the fewest digits that identify it. A positive number of 53 significant
bits is the rounding of every real in an interval around it. Among the decimals of that interval
the ones with the fewest digits are taken, of those the one nearest to the number, and of two
equally near ones the larger. The search compares exact rationals and tries at most seventeen
digits.

There are two styles. Error messages and fractions never use an exponent and write whole numbers
bare; listings use an exponent far from one and always show a fraction digit otherwise.
-/
namespace GlyphHints

/-! ## Decimals -/

/-- The number `digits * 10 ^ exponent`. -/
structure Decimal where
  digits : Nat
  exponent : Int
deriving DecidableEq

namespace Decimal

def toRat (d : Decimal) : Rat := (d.digits : Rat) * (10 : Rat) ^ d.exponent

def digitChars (d : Decimal) : List Char := Nat.toDigits 10 d.digits

def leadingExponent (d : Decimal) : Int := d.exponent + (d.digitChars.length : Int) - 1

/-- Moves trailing zeros of the digits into the exponent; `fuel` bounds their number. -/
def stripZeros : Nat → Decimal → Decimal
  | 0, d => d
  | fuel + 1, d =>
    if d.digits % 10 = 0 then stripZeros fuel ⟨d.digits / 10, d.exponent + 1⟩ else d

/-- Whether a decimal rounds to the positive number `a`. The ends of the interval belong to
it when the significand is even; below a power of two the gap is half as wide. -/
def readsBack (a : Rat) (d : Decimal) : Bool :=
  let (m, e) := Rounding.decompose a
  let quarter := (2 : Rat) ^ (e - 2)
  let narrow := m = Nat.pow 2 52 ∧ -1074 < e
  let low := ((if narrow then 4 * m - 1 else 4 * m - 2 : Nat) : Rat) * quarter
  let high := ((4 * m + 2 : Nat) : Rat) * quarter
  let x := d.toRat
  if m % 2 = 0 then decide (low ≤ x) && decide (x ≤ high)
  else decide (low < x) && decide (x < high)

/-- The least `k` with `a < 10 ^ k`, looked for upwards from an estimate that is not above
it; `fuel` bounds how far the estimate can be off. -/
def leastPowerAbove (a : Rat) : Nat → Int → Int
  | 0, k => k
  | fuel + 1, k => if a < (10 : Rat) ^ k then k else leastPowerAbove a fuel (k + 1)

/-- An estimate of the decimal exponent from the binary one: 30103 / 100000 is just above
the logarithm of two. -/
def estimatedPower (a : Rat) : Int :=
  (Rounding.floorLog2 a * 30103).fdiv 100000 - 1

/-- The neighbour of `a` on the grid of step `10 ^ step` that reads back, if one does; the
nearer one if both do, and the upper one on a tie. -/
def onGrid? (a : Rat) (step : Int) : Option Decimal :=
  let below := (a / (10 : Rat) ^ step).floor.toNat
  let lower : Decimal := ⟨below, step⟩
  let upper : Decimal := ⟨below + 1, step⟩
  match readsBack a lower, readsBack a upper with
  | true, true => if a - lower.toRat < upper.toRat - a then some lower else some upper
  | true, false => some lower
  | false, true => some upper
  | false, false => none

/-- The exact decimal expansion of a number whose denominator is a power of two. -/
def exact (a : Rat) : Decimal :=
  ⟨a.num.natAbs * Nat.pow 5 a.den.log2, -(a.den.log2 : Int)⟩

/-- The shortest decimal that reads back as the positive number `a`. -/
def shortest (a : Rat) : Decimal :=
  let power := leastPowerAbove a 4 (estimatedPower a)
  let found := (List.range 17).findSome? fun (n : Nat) => onGrid? a (power - (n : Int) - 1)
  let d := found.getD (exact a)
  stripZeros (d.digitChars.length) d

end Decimal

/-! ## Styles -/

/-- How the digits of a number are laid out. -/
structure NumberStyle where
  /-- Whether a number whose leading digit has this exponent is written without one. -/
  positional : Int → Bool
  /-- Whether a whole number ends in `.0`. -/
  showsFraction : Bool

namespace NumberStyle

/-- Always positional; whole numbers bare. -/
def bare : NumberStyle where
  positional _ := true
  showsFraction := false

/-- Positional from 0.0001 to below 10 to the sixteenth; whole numbers end in `.0`. -/
def decimal : NumberStyle where
  positional e := decide (-4 ≤ e) && decide (e < 16)
  showsFraction := true

/-- Digits with the point in their midst, after zeros that fill up to it, or before any. -/
def positionalChars (style : NumberStyle) (d : Decimal) : List Char :=
  let digits := d.digitChars
  if 0 ≤ d.exponent then
    digits ++ List.replicate d.exponent.toNat '0' ++
      (if style.showsFraction then ['.', '0'] else [])
  else
    let places := (-d.exponent).toNat
    if places < digits.length then
      digits.take (digits.length - places) ++ '.' :: digits.drop (digits.length - places)
    else ['0', '.'] ++ List.replicate (places - digits.length) '0' ++ digits

/-- One digit, the others after a point if there are any, and the exponent. -/
def scientificChars (d : Decimal) : List Char :=
  let digits := d.digitChars
  digits.take 1 ++ (if digits.length = 1 then [] else '.' :: digits.drop 1) ++
    'e' :: (toString d.leadingExponent).toList

def chars (style : NumberStyle) (a : Rat) : List Char :=
  let d := Decimal.shortest a
  if style.positional d.leadingExponent then style.positionalChars d else scientificChars d

end NumberStyle

namespace Shift

def text (style : NumberStyle) : Shift → String
  | pixels q =>
    if q = 0 then if style.showsFraction then "0.0" else "0"
    else if q < 0 then String.ofList ('-' :: style.chars q.abs)
    else String.ofList (style.chars q)
  | negativeZero => if style.showsFraction then "-0.0" else "-0"
  | infinite negative => if negative then "-inf" else "inf"
  | nan _ _ => "NaN"

end Shift

end GlyphHints
