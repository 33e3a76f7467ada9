import GlyphHints.Machine
import GlyphHints.Proofs.Granularity

/-!
# Shifts that a machine comes to

A change of the delta shift may leave the shift of a machine between two grains. It is still a
number of 64ths of a pixel, and as long as it is not too large, advancing it from there is exact
too: it drops the fraction of a grain, moves on and skips zero. So a machine never comes to a
shift of zero, and a hint moves its shift by little more than its repeat.
-/
namespace GlyphHints

namespace Shift

/-- A number of 64ths of a pixel other than zero, at most `bound` pixels away from it. -/
def OnGrid (bound : Nat) (shift : Shift) : Prop :=
  ∃ q : Rat, shift = .pixels q ∧ q ≠ 0 ∧ isWhole q maxDeltaShift = true ∧ |q| ≤ bound

variable {q : Rat} {d bound : Nat} {shift : Shift}

theorem OnGrid.mono (h : shift.OnGrid bound) {larger : Nat} (hle : bound ≤ larger) :
    shift.OnGrid larger := by
  obtain ⟨q, hshift, hq, hwhole, hbound⟩ := h
  exact ⟨q, hshift, hq, hwhole, hbound.trans (Nat.cast_le.mpr hle)⟩

theorem OnGrid.isUsable (h : shift.OnGrid bound) : shift.isUsable = true := by
  obtain ⟨q, rfl, hq, -⟩ := h
  exact bne_iff_ne.mpr hq

theorem OnGrid.exists_eq (h : shift.OnGrid bound) :
    ∃ k : Int, k ≠ 0 ∧ shift = .pixels (k / 64) := by
  obtain ⟨q, rfl, hq, hwhole, -⟩ := h
  obtain ⟨k, hk⟩ := isWhole_iff.mp hwhole
  have hqk : q = k / 64 := by
    rw [eq_div_of_stepsOf hk, cast_scale]
    norm_num [maxDeltaShift]
  refine ⟨k, ?_, congrArg pixels hqk⟩
  rintro rfl
  exact hq (by rw [hqk, Int.cast_zero, zero_div])

/-- A whole number of steps of any delta shift is on the grid. -/
theorem onGrid_ofSteps {n : Int} (hn : n ≠ 0) (hd : d ≤ maxDeltaShift)
    (hle : |(n : Rat)| ≤ bound * 2 ^ d) : (ofSteps n d).OnGrid bound := by
  have hpos : (0 : Rat) < 2 ^ d := by positivity
  have hwhole : isWhole (n / (scale d : Rat)) d = true := isWhole_iff.mpr ⟨n, stepsOf_div n d⟩
  refine ⟨n / (scale d : Rat), rfl, ?_, isWhole_mono hd hwhole, ?_⟩
  · rw [cast_scale]
    exact div_ne_zero (Int.cast_ne_zero.mpr hn) hpos.ne'
  · rw [cast_scale, abs_div, abs_of_pos hpos]
    exact (div_le_iff₀ hpos).mpr hle

theorem abs_stepsOf (q : Rat) (d : Nat) : |stepsOf q d| = |q| * 2 ^ d := by
  rw [stepsOf, cast_scale, abs_mul, abs_of_pos (by positivity : (0 : Rat) < 2 ^ d)]

theorem abs_stepsOf_le (hd : d ≤ maxDeltaShift) (hq : |q| ≤ 2 ^ 46) : |stepsOf q d| ≤ 2 ^ 52 := by
  have hpow : (2 : Rat) ^ d ≤ 2 ^ 6 := pow_le_pow_right₀ one_le_two hd
  rw [abs_stepsOf]
  exact (mul_le_mul hq hpow (by positivity) (by positivity)).trans (by norm_num)

/-- Steps of a shift on the grid are added to without rounding. -/
theorem toPrecision_stepsOf {c : Int} (hd : d ≤ maxDeltaShift)
    (hwhole : isWhole q maxDeltaShift = true) (hq : |q| ≤ 2 ^ 46) (hc : c.natAbs ≤ 8) :
    Rounding.toPrecision (stepsOf q d + c) = stepsOf q d + c := by
  obtain ⟨n, hn⟩ := isWhole_iff.mp hwhole
  obtain ⟨j, hj⟩ := Nat.exists_eq_add_of_le hd
  have hstep : stepsOf q d * 2 ^ j = n := by
    rw [← hn, hj]
    simp only [stepsOf, cast_scale, pow_add, mul_assoc]
  have hsmall : n.natAbs ≤ 2 ^ 52 := by
    have hle : (n.natAbs : Rat) ≤ 2 ^ 52 := by
      rw [Nat.cast_natAbs, Int.cast_abs, ← hn]
      exact abs_stepsOf_le le_rfl hq
    exact_mod_cast hle
  have hfraction : 2 ^ j ≤ 2 ^ 6 :=
    Nat.pow_le_pow_right (by decide) (hj ▸ Nat.le_add_left j d : j ≤ maxDeltaShift)
  refine Rounding.toPrecision_eq_self (j := j) (n := n + c * 2 ^ j) ?_ ?_
  · rw [add_mul, hstep]
    push_cast
    rfl
  · have hadd : (c * 2 ^ j).natAbs ≤ 8 * 2 ^ 6 := by
      rw [Int.natAbs_mul, Int.natAbs_pow]
      exact Nat.mul_le_mul hc hfraction
    have hsum := Int.natAbs_add_le n (c * 2 ^ j)
    omega

end Shift

namespace Grain

/-- One step less where zero is skipped. -/
theorem exists_ofShift_eq {q : Rat} {d : Nat} (hd : d ≤ maxDeltaShift)
    (hwhole : Shift.isWhole q maxDeltaShift = true) (hq : |q| ≤ 2 ^ 46) :
    ∃ c : Int, (c = 7 ∨ c = 8) ∧
      ofShift (.pixels q) d = saturate (Rounding.truncate (Shift.stepsOf q d + c)) := by
  have hexact {c : Int} := Shift.toPrecision_stepsOf (c := c) hd hwhole hq
  have hmoved : Rounding.toPrecision (Shift.stepsOf q d + 8) = Shift.stepsOf q d + 8 := by
    exact_mod_cast hexact (c := 8) (by decide)
  have hunfold : ofShift (.pixels q) d = saturate (Rounding.truncate (Rounding.toPrecision
      (Rounding.toPrecision (Shift.stepsOf q d + 8) -
        if 0 < Shift.stepsOf q d then 1 else 0))) := rfl
  rw [hunfold, hmoved]
  split_ifs
  · have hskip : Shift.stepsOf q d + 8 - 1 = Shift.stepsOf q d + (7 : Int) := by
      push_cast
      ring
    exact ⟨7, .inl rfl, by rw [hskip, hexact (by decide)]⟩
  · have hskip : Shift.stepsOf q d + 8 - 0 = Shift.stepsOf q d + (8 : Int) := by
      push_cast
      ring
    exact ⟨8, .inr rfl, by rw [hskip, hexact (by decide)]⟩

/-- A shift gives a grain less than two steps away, also from between two grains. -/
theorem abs_ofShift_sub_lt {q : Rat} {d : Nat} (hd : d ≤ maxDeltaShift)
    (hwhole : Shift.isWhole q maxDeltaShift = true) (hq : |q| ≤ 2 ^ 46) :
    |(ofShift (.pixels q) d : Rat) - 8 - Shift.stepsOf q d| < 2 := by
  obtain ⟨c, hc, hgrain⟩ := exists_ofShift_eq hd hwhole hq
  have hcast : (7 : Rat) ≤ c ∧ (c : Rat) ≤ 8 := by rcases hc with rfl | rfl <;> norm_num
  obtain ⟨hlow, hhigh⟩ := abs_sub_lt_iff.mp
    (Rounding.abs_truncate_sub_lt (Shift.stepsOf q d + c))
  have hsteps := abs_le.mp (Shift.abs_stepsOf_le hd hq)
  have hsmall : (Rounding.truncate (Shift.stepsOf q d + c)).natAbs < 2 ^ 63 := by
    have habs : |((Rounding.truncate (Shift.stepsOf q d + c) : Int) : Rat)| < 2 ^ 63 :=
      abs_lt.mpr ⟨by linarith, by linarith⟩
    rw [← Int.cast_abs, Int.abs_eq_natAbs] at habs
    exact_mod_cast habs
  rw [hgrain, saturate_of_natAbs_lt hsmall]
  exact abs_lt.mpr ⟨by linarith, by linarith⟩

/-- What a nybble stands for is at most eight pixels. -/
theorem onGrid_toShift {grain d : Nat} (hgrain : grain < 16) (hd : d ≤ maxDeltaShift) :
    (toShift grain d).OnGrid 8 := by
  obtain ⟨k, hk, hle, hshift⟩ := exists_steps grain d hgrain
  have habs : |(k : Rat)| ≤ 8 := by
    rw [← Int.cast_abs, Int.abs_eq_natAbs]
    exact_mod_cast hle
  have hone : (1 : Rat) ≤ 2 ^ d := one_le_pow₀ one_le_two
  rw [hshift]
  exact Shift.onGrid_ofSteps hk hd (habs.trans (le_mul_of_one_le_right (by norm_num) hone))

end Grain

namespace Machine

/-- A hint never moves a shift to zero, and moves it by little more than the repeat. -/
theorem onGrid_shiftAfter {s : Machine} {bound grains : Nat} (hd : s.deltaShift ≤ maxDeltaShift)
    (h : s.shift.OnGrid bound) (hbound : bound ≤ 2 ^ 46) (hgrains : grains ≤ 2 ^ 46) :
    (s.shiftAfter grains).OnGrid (bound + grains + 3) := by
  obtain ⟨q, hshift, -, hwhole, hq⟩ := h
  have hlarge : |q| ≤ 2 ^ 46 := hq.trans (by exact_mod_cast hbound)
  obtain ⟨n, hn, hgrain, hlow, hhigh⟩ :=
    Grain.exists_ofSteps_eq (Grain.ofShift (.pixels q) s.deltaShift + grains)
  have hlow : (Grain.ofShift (.pixels q) s.deltaShift : Rat) + grains - 8 ≤ n := by
    exact_mod_cast hlow
  have hhigh : (n : Rat) ≤ Grain.ofShift (.pixels q) s.deltaShift + grains - 7 := by
    exact_mod_cast hhigh
  obtain ⟨hnear, hfar⟩ := abs_lt.mp (Grain.abs_ofShift_sub_lt hd hwhole hlarge)
  have hsteps := abs_le.mp (Shift.abs_stepsOf_le hd hlarge)
  have hcast : (grains : Rat) ≤ 2 ^ 46 := by exact_mod_cast hgrains
  have hsmall : n.natAbs < 2 ^ 53 := by
    have habs : |(n : Rat)| < 2 ^ 53 := abs_lt.mpr ⟨by linarith, by linarith⟩
    rw [← Int.cast_abs, Int.abs_eq_natAbs] at habs
    exact_mod_cast habs
  rw [shiftAfter, hshift, ← hgrain, Grain.toShift_ofSteps hn hsmall]
  refine Shift.onGrid_ofSteps hn hd ?_
  -- Less than three steps are added to the repeat, and a step is at most a pixel.
  have hone : (1 : Rat) ≤ 2 ^ s.deltaShift := one_le_pow₀ one_le_two
  have hadded := le_mul_of_one_le_right (by positivity : (0 : Rat) ≤ grains + 3) hone
  have hscaled := mul_le_mul_of_nonneg_right hq (zero_le_one.trans hone)
  rw [← Shift.abs_stepsOf] at hscaled
  have hself := le_abs_self (Shift.stepsOf q s.deltaShift)
  have hneg := neg_abs_le (Shift.stepsOf q s.deltaShift)
  push_cast
  rw [add_assoc, add_mul]
  exact abs_le.mpr ⟨by linarith, by linarith⟩

end Machine

end GlyphHints
