import GlyphHints.Error

/-!
# Grains

At delta shift `d` a grain is `1 / 2 ^ d` of a pixel. A shift is a number of steps of one
grain; the nybbles 0 to 15 stand for the steps -8 to -1 and 1 to 8, and numbers outside that
range continue the pattern, so no grain stands for a shift of zero.

Sums of steps are rounded as binary64 rounds them, and integers read from them are cut off
at the ends of the signed 64-bit range. Both are exact for every shift a program can hold.
-/
namespace GlyphHints

def maxDeltaShift : Nat := 6

def scale (deltaShift : Nat) : Nat := Nat.pow 2 deltaShift

def leastInteger : Int := -9223372036854775808

def greatestInteger : Int := 9223372036854775807

/-- An integer cut off at the ends of the signed 64-bit range. -/
def saturate (n : Int) : Int := max leastInteger (min n greatestInteger)

namespace Grain

/-- The shift a grain stands for. -/
def toShift (grain : Int) (deltaShift : Nat) : Shift :=
  let steps := grain - 8 + (if 8 ≤ grain then 1 else 0)
  .pixels (Rounding.toPrecision steps / (scale deltaShift : Rat))

/-- The grain of a number of steps that is not zero. -/
def ofSteps (steps : Int) : Int := steps + 8 - (if 0 < steps then 1 else 0)

/-- The grain a shift stands for; a shift between two grains gives the one nearer to grain
zero, and what is not a number gives grain zero. -/
def ofShift (shift : Shift) (deltaShift : Nat) : Int :=
  match shift with
  | .infinite negative => if negative then leastInteger else greatestInteger
  | .nan _ _ => 0
  | .negativeZero => 8
  | .pixels q =>
    let steps := q * (scale deltaShift : Rat)
    let moved := Rounding.toPrecision (steps + 8)
    let skip : Rat := if 0 < steps then 1 else 0
    saturate (Rounding.truncate (Rounding.toPrecision (moved - skip)))

end Grain

namespace Shift

/-- Steps in a finite shift, as a rational. -/
def stepsOf (q : Rat) (deltaShift : Nat) : Rat := q * (scale deltaShift : Rat)

/-- Whether a finite shift is a whole number of steps. -/
def isWhole (q : Rat) (deltaShift : Nat) : Bool := (stepsOf q deltaShift).isInt

/-- Whether a finite shift is at most eight steps from zero. -/
def isNear (q : Rat) (deltaShift : Nat) : Bool := (stepsOf q deltaShift).abs ≤ 8

/-- Whether a nybble can hold this shift: a whole number of steps, at most eight. -/
def isRepresentable (shift : Shift) (deltaShift : Nat) : Bool :=
  match shift.toRat? with
  | some q => isWhole q deltaShift && isNear q deltaShift
  | none => false

/-- The whole number of steps, dropping any fraction. -/
def steps (shift : Shift) (deltaShift : Nat) : Int :=
  match shift with
  | .infinite negative => if negative then leastInteger else greatestInteger
  | .nan _ _ => 0
  | .negativeZero => 0
  | .pixels q => saturate (Rounding.truncate (stepsOf q deltaShift))

/-- The first delta shift from `deltaShift` to the finest at which `q` is whole. A start
beyond the finest one is tried itself and no further. -/
def refine? (q : Rat) (deltaShift : Nat) : Option Nat :=
  (deltaShift :: List.range' (deltaShift + 1) (maxDeltaShift - deltaShift)).find? (isWhole q)

/-- The first delta shift from `deltaShift` down at which `q` is near zero, as long as it
stays whole on the way. -/
def coarsen? (q : Rat) : Nat → Option Nat
  | 0 => if isNear q 0 then some 0 else none
  | d + 1 =>
    if isNear q (d + 1) then some (d + 1)
    else if isWhole q d then coarsen? q d
    else none

/-- The delta shift closest to `deltaShift` at which a nybble can hold the shift: refined
until it is whole, then coarsened until it is near. -/
def fit (shift : Shift) (deltaShift : Nat) : Except Error Nat :=
  match shift.toRat?.bind fun q => (refine? q deltaShift).bind (coarsen? q) with
  | some d => .ok d
  | none => .error (.granularityExhausted shift)

/-- The coarsest delta shift at which the shift is a whole number of steps. -/
def coarsest (shift : Shift) : Except Error Nat :=
  match shift.toRat?.bind fun q => (List.range (maxDeltaShift + 1)).find? (isWhole q) with
  | some d => .ok d
  | none => .error (.granularityExhausted shift)

theorem coarsest_le {shift : Shift} {d : Nat} (h : shift.coarsest = .ok d) :
    d ≤ maxDeltaShift := by
  unfold coarsest at h
  split at h
  · rename_i e he
    obtain ⟨q, _, hq⟩ := Option.bind_eq_some_iff.mp he
    have := List.mem_range.mp (List.mem_of_find?_eq_some hq)
    cases h
    omega
  · contradiction

end Shift

end GlyphHints
