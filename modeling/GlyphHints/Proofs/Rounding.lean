import GlyphHints.Grain
import Mathlib.Algebra.Order.Field.Power
import Mathlib.Data.Rat.Floor
import Mathlib.Tactic.Linarith
import Mathlib.Tactic.Ring

/-!
# Where rounding does nothing

Sums of steps are rounded to 53 significant bits and integers read from them are cut off at
the ends of the signed 64-bit range. An integer inside either range comes through unchanged,
and so does a number of 64ths of a pixel, so grain arithmetic is exact on the steps of a recorded
hint as well as between them.
-/
namespace GlyphHints
namespace Rounding

theorem abs_eq_abs (q : Rat) : q.abs = |q| := by
  unfold Rat.abs
  split_ifs with h
  · exact (abs_of_nonneg h).symm
  · exact (abs_of_neg (not_le.mp h)).symm

theorem nearestEven_intCast (n : Int) : nearestEven (n : Rat) = n := by
  simp [nearestEven, Rat.floor_intCast]

theorem truncate_intCast (n : Int) : truncate (n : Rat) = n := by
  unfold truncate
  split_ifs
  · rw [← Int.cast_neg, Rat.floor_intCast, neg_neg]
  · exact Rat.floor_intCast n

/-- The exponent that is found is none too large. -/
theorem zpow_floorLog2_le {a : Rat} (ha : 0 < a) : (2 : Rat) ^ floorLog2 a ≤ a := by
  simp only [floorLog2]
  split_ifs with h
  · exact h
  · have hnum : a.num.natAbs ≠ 0 := by simpa using ha.ne'
    have hlow : (2 : Rat) ^ a.num.natAbs.log2 ≤ a.num.natAbs := by
      exact_mod_cast Nat.log2_self_le hnum
    have hhigh : (a.den : Rat) ≤ 2 ^ (a.den.log2 + 1) := by
      exact_mod_cast Nat.le_of_lt Nat.lt_log2_self
    have hcast : (a.num : Rat) = (a.num.natAbs : Rat) := by
      rw [← Int.cast_natCast, Int.natAbs_of_nonneg (Rat.num_pos.mpr ha).le]
    have hden : (0 : Rat) < a.den := Nat.cast_pos.mpr a.den_pos
    calc (2 : Rat) ^ ((a.num.natAbs.log2 : Int) - (a.den.log2 : Int) - 1)
        = 2 ^ a.num.natAbs.log2 / 2 ^ (a.den.log2 + 1) := by
          rw [sub_sub, zpow_sub₀ two_ne_zero]
          norm_cast
      _ ≤ a.num.natAbs / a.den := div_le_div₀ (Nat.cast_nonneg _) hlow hden hhigh
      _ = a := by rw [← hcast, Rat.num_div_den]

/-- What is a whole number of some fraction of 1, less than `2 ^ 53`, is not rounded. -/
theorem toPrecision_eq_self {a : Rat} {j : Nat} {n : Int} (ha : a * 2 ^ j = n)
    (hn : n.natAbs < 2 ^ 53) : toPrecision a = a := by
  by_cases hzero : a = 0
  · simp [hzero, toPrecision]
  · have hpos : 0 < |a| := abs_pos.mpr hzero
    have hlog : floorLog2 |a| + j < 53 := by
      have hlow := zpow_floorLog2_le hpos
      have habs : |a| * 2 ^ j = (n.natAbs : Rat) := by
        rw [← abs_of_pos (pow_pos (two_pos : (0 : Rat) < 2) j), ← abs_mul, ha, Nat.cast_natAbs,
          Int.cast_abs]
      have hlt : (n.natAbs : Rat) < 2 ^ (53 : Int) := by exact_mod_cast hn
      refine (zpow_lt_zpow_iff_right₀ (one_lt_two : (1 : Rat) < 2)).mp ?_
      calc (2 : Rat) ^ (floorLog2 |a| + j) = 2 ^ floorLog2 |a| * 2 ^ j := by
            rw [zpow_add₀ two_ne_zero, zpow_natCast]
        _ ≤ |a| * 2 ^ j := mul_le_mul_of_nonneg_right hlow (by positivity)
        _ < 2 ^ (53 : Int) := habs ▸ hlt
    simp only [toPrecision, if_neg hzero, abs_eq_abs]
    -- The unit in the last place is a fraction of the one that `a` is a whole number of.
    obtain ⟨i, hi⟩ : ∃ i : Nat, floorLog2 |a| - 52 = -((j + i : Nat) : Int) :=
      ⟨(52 - j - floorLog2 |a|).toNat, by omega⟩
    have hwhole : a * 2 ^ (j + i) = ((n * 2 ^ i : Int) : Rat) := by
      rw [pow_add, ← mul_assoc, ha]
      push_cast
      rfl
    rw [hi, zpow_neg, zpow_natCast, div_inv_eq_mul, hwhole, nearestEven_intCast, ← hwhole]
    exact mul_inv_cancel_right₀ (pow_ne_zero _ two_ne_zero) _

/-- An integer of at most 53 significant bits is not rounded. -/
theorem toPrecision_intCast {n : Int} (h : n.natAbs < 2 ^ 53) : toPrecision (n : Rat) = n :=
  toPrecision_eq_self (j := 0) (by simp) h

theorem abs_truncate_sub_lt (a : Rat) : |(truncate a : Rat) - a| < 1 := by
  have hfloor (b : Rat) : |(b.floor : Rat) - b| < 1 := by
    have hle := b.floor_le
    have hlt := b.lt_floor_add_one
    push_cast at hlt
    exact abs_sub_lt_iff.mpr ⟨by linarith, by linarith⟩
  unfold truncate
  split_ifs
  · have h := hfloor (-a)
    rw [← abs_neg] at h
    convert h using 2
    push_cast
    ring
  · exact hfloor a
end Rounding

theorem saturate_of_natAbs_lt {n : Int} (h : n.natAbs < 2 ^ 63) : saturate n = n := by
  unfold saturate leastInteger greatestInteger
  omega

end GlyphHints
