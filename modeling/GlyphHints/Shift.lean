import GlyphHints.Ascending

/-!
# Sub-pixel shifts

A shift is measured in pixels and stored as a binary64 number. The finite ones are kept as
the exact rationals they stand for. Negative zero, the infinities and the NaNs can be read
and printed, and they order like their bits, but no hint that is recorded carries one.
-/
namespace GlyphHints

/-- A binary64 number. Two of them are equal only if their bits are. -/
inductive Shift where
  /-- A finite number, zero included. -/
  | pixels (value : Rat)
  | negativeZero
  | infinite (negative : Bool)
  /-- Not a number; the payload is the fraction field. -/
  | nan (negative : Bool) (payload : Nat)
deriving DecidableEq

namespace Shift

instance : Inhabited Shift := ⟨pixels 0⟩

/-- Negative zero becomes zero; nothing else changes. -/
def foldZero : Shift → Shift
  | negativeZero => pixels 0
  | s => s

/-- The exact value of a finite shift. -/
def toRat? : Shift → Option Rat
  | pixels q => some q
  | negativeZero => some 0
  | infinite _ => none
  | nan _ _ => none

/-- Whether a hint may carry this shift: a finite number other than zero. -/
def isUsable : Shift → Bool
  | pixels q => q != 0
  | _ => false

/-! The order is that of the real line, with the infinities at its ends, the NaNs beyond
them by sign and payload, and negative zero just below zero. -/

/-- Which stretch of the order a shift lies in: the finite numbers at 0, the infinities and
each NaN on a step of its own. -/
def rank : Shift → Int
  | pixels _ => 0
  | negativeZero => 0
  | infinite negative => if negative then -1 else 1
  | nan negative payload => if negative then -2 - (payload : Int) else 2 + (payload : Int)

/-- The place among the finite numbers. -/
def place : Shift → Rat
  | pixels q => q
  | _ => 0

/-- Separates the two zeros. -/
def zeroSide : Shift → Nat
  | negativeZero => 0
  | _ => 1

def compareRat (a b : Rat) : Ordering := compareOfLessAndEq a b

instance : Std.TransCmp compareRat :=
  Std.TransOrd.compareOfLessAndEq_of_antisymm_of_trans_of_total_of_not_le
    Rat.le_antisymm Rat.le_trans (fun _ _ => Rat.le_total) Rat.not_le

instance : Std.LawfulEqCmp compareRat where
  compare_self := (compareOfLessAndEq_eq_eq (fun _ => Rat.le_refl) Rat.not_le).mpr rfl
  eq_of_compare := (compareOfLessAndEq_eq_eq (fun _ => Rat.le_refl) Rat.not_le).mp

instance : Ord Shift where
  compare := compareLex (compareOn rank)
    (compareLex (compareVia compareRat place) (compareOn zeroSide))

instance : Std.TransOrd Shift :=
  inferInstanceAs (Std.TransCmp (compareLex (compareOn rank)
    (compareLex (compareVia compareRat place) (compareOn zeroSide))))

theorem eq_of_rank_place_zeroSide {a b : Shift} (hr : a.rank = b.rank)
    (hp : a.place = b.place) (hz : a.zeroSide = b.zeroSide) : a = b := by
  cases a <;> cases b <;> grind [rank, place, zeroSide]

instance : Std.LawfulEqOrd Shift where
  eq_of_compare h := by
    obtain ⟨hr, h⟩ := compareLex_eq_eq.mp h
    obtain ⟨hp, hz⟩ := compareLex_eq_eq.mp h
    exact eq_of_rank_place_zeroSide (Std.LawfulEqOrd.eq_of_compare hr)
      (Std.LawfulEqCmp.eq_of_compare hp) (Std.LawfulEqOrd.eq_of_compare hz)

end Shift

end GlyphHints
