import GlyphHints.Machine
import GlyphHints.Proofs.Granularity

/-!
# Grains as the points of a grid

Counted past the nybbles in both directions, the grains of a delta shift run through the multiples
of its grain in ascending order and leave out zero alone. Going from grains to shifts and back
changes nothing on either side, so a machine that advances twice comes to where it would come to by
advancing once by the sum.
-/
namespace GlyphHints

namespace Shift

theorem compare_pixels (p q : Rat) : compare (pixels p) (pixels q) = compareRat p q := by
  change (compareRat p q).then .eq = compareRat p q
  cases compareRat p q <;> rfl

theorem compare_pixels_eq_lt {p q : Rat} : compare (pixels p) (pixels q) = .lt ↔ p < q := by
  rw [compare_pixels]
  exact compareOfLessAndEq_eq_lt

/-- A multiple of the grain other than zero, less than `bound` pixels away from it. -/
def IsMultiple (shift : Shift) (d bound : Nat) : Prop :=
  ∃ k : Int, k ≠ 0 ∧ shift = .pixels (k / 2 ^ d) ∧ |(k : Rat) / 2 ^ d| < bound

theorem ofSteps_eq (n : Int) (d : Nat) : ofSteps n d = .pixels (n / 2 ^ d) := by
  rw [ofSteps, cast_scale]

theorem compare_ofSteps_eq_lt {m n : Int} {d : Nat} :
    compare (ofSteps m d) (ofSteps n d) = .lt ↔ m < n := by
  have hpos : (0 : Rat) < 2 ^ d := by positivity
  rw [ofSteps_eq, ofSteps_eq, compare_pixels_eq_lt, div_lt_div_iff_of_pos_right hpos, Int.cast_lt]

/-- There are at most 64 grains in a pixel. -/
theorem IsMultiple.exists_ofSteps {shift : Shift} {d bound : Nat} (h : shift.IsMultiple d bound)
    (hd : d ≤ maxDeltaShift) :
    ∃ k : Int, k ≠ 0 ∧ shift = ofSteps k d ∧ k.natAbs < bound * 2 ^ 6 := by
  obtain ⟨k, hk, rfl, hbound⟩ := h
  have hpos : (0 : Rat) < 2 ^ d := by positivity
  have hpow : (2 : Rat) ^ d ≤ 2 ^ 6 := pow_le_pow_right₀ one_le_two hd
  rw [abs_div, abs_of_pos hpos, div_lt_iff₀ hpos] at hbound
  refine ⟨k, hk, (ofSteps_eq k d).symm, ?_⟩
  have habs : (k.natAbs : Rat) < bound * 2 ^ 6 := calc
    (k.natAbs : Rat) = |(k : Rat)| := by rw [Nat.cast_natAbs, Int.cast_abs]
    _ < bound * 2 ^ d := hbound
    _ ≤ bound * 2 ^ 6 := by gcongr
  exact_mod_cast habs

end Shift

namespace Grain
variable {g h : Int} {d : Nat}

theorem ofSteps_lt_ofSteps_iff {m n : Int} (hm : m ≠ 0) : ofSteps m < ofSteps n ↔ m < n := by
  rw [← not_le, ofSteps_le_ofSteps_iff hm, not_le]

theorem natAbs_ofSteps_le (n : Int) : (ofSteps n).natAbs ≤ n.natAbs + 8 := by
  unfold ofSteps
  split_ifs <;> omega

/-- A grain is that of a number of steps other than zero, and stands for so many. -/
theorem exists_toShift_eq (hg : g.natAbs < 2 ^ 50) (d : Nat) : ∃ n : Int, n ≠ 0 ∧
    ofSteps n = g ∧ n.natAbs < 2 ^ 51 ∧ toShift g d = Shift.ofSteps n d := by
  obtain ⟨n, hn, rfl, hlow, hhigh⟩ := exists_ofSteps_eq g
  exact ⟨n, hn, rfl, by omega, toShift_ofSteps hn (by omega) d⟩

theorem ofShift_toShift (hg : g.natAbs < 2 ^ 50) (d : Nat) : ofShift (toShift g d) d = g := by
  obtain ⟨n, -, rfl, hsmall, hshift⟩ := exists_toShift_eq hg d
  rw [hshift]
  exact ofShift_ofSteps (by omega) d

theorem toShift_lt_toShift (hg : g.natAbs < 2 ^ 50) (hh : h.natAbs < 2 ^ 50) (hlt : g < h)
    (d : Nat) : compare (toShift g d) (toShift h d) = .lt := by
  obtain ⟨m, hm, rfl, -, hmshift⟩ := exists_toShift_eq hg d
  obtain ⟨n, -, rfl, -, hnshift⟩ := exists_toShift_eq hh d
  rw [hmshift, hnshift]
  exact Shift.compare_ofSteps_eq_lt.mpr ((ofSteps_lt_ofSteps_iff hm).mp hlt)

theorem isUsable_toShift (hg : g.natAbs < 2 ^ 50) (d : Nat) :
    (toShift g d).isUsable = true := by
  obtain ⟨n, hn, -, -, hshift⟩ := exists_toShift_eq hg d
  rw [hshift]
  exact Shift.isUsable_ofSteps hn d

/-- A multiple of the grain has a grain, and that grain stands for it. -/
theorem toShift_ofShift {shift : Shift} (hshift : shift.IsMultiple d (2 ^ 40))
    (hd : d ≤ maxDeltaShift) :
    (ofShift shift d).natAbs < 2 ^ 47 ∧ toShift (ofShift shift d) d = shift := by
  obtain ⟨k, hk, rfl, hsmall⟩ := hshift.exists_ofSteps hd
  have hle := natAbs_ofSteps_le k
  rw [ofShift_ofSteps (by omega)]
  exact ⟨by omega, toShift_ofSteps hk (by omega) d⟩

end Grain

namespace Machine
variable {s : Machine} {a b : Nat}

/-- The grains that a machine comes to are those of the shifts it comes to. -/
theorem shiftAfter_shiftAfter
    (h : (Grain.ofShift s.shift s.deltaShift + a).natAbs < 2 ^ 50) :
    { s with shift := s.shiftAfter a }.shiftAfter b = s.shiftAfter (a + b) := by
  simp only [shiftAfter, Grain.ofShift_toShift h, Nat.cast_add, add_assoc]

/-- Advancing moves the shift by the repeat, or leaves it alone both times. -/
theorem advance_advance_shift
    (h : { s with shift := s.shiftAfter a }.shiftAfter b = s.shiftAfter (a + b)) :
    ({ ({ s with repeats := a }.advance) with repeats := b }.advance).shift =
      ({ s with repeats := a + b }.advance).shift := by
  cases hmask : s.autoIncrement.shift with
  | false => simp [advance, hmask]
  | true => simpa [advance, hmask, shiftAfter] using h

/-- Grains stand for the multiples of a delta shift's grain other than zero, one for each and in
their order. Where the shift of a machine is such a multiple, advancing raises it and never leads
to zero, and advancing by two repeats in turn leads to where advancing by their sum does. -/
theorem advance_additive :
    (∀ d ≤ maxDeltaShift, ∀ g : Int, |g| < 2 ^ 50 →
      (∃ k : Int, k ≠ 0 ∧ Grain.toShift g d = .pixels (k / 2 ^ d)) ∧
      Grain.ofShift (Grain.toShift g d) d = g ∧
      ∀ h : Int, |h| < 2 ^ 50 → g < h →
        compare (Grain.toShift g d) (Grain.toShift h d) = .lt) ∧
    (∀ d ≤ maxDeltaShift, ∀ shift : Shift, shift.IsMultiple d (2 ^ 40) →
      |Grain.ofShift shift d| < 2 ^ 50 ∧ Grain.toShift (Grain.ofShift shift d) d = shift) ∧
    ∀ s : Machine, s.deltaShift ≤ maxDeltaShift → s.shift.IsMultiple s.deltaShift (2 ^ 40) →
      ∀ a b, a + b < 2 ^ 32 →
        (0 < a → compare s.shift (s.shiftAfter a) = .lt) ∧ (s.shiftAfter a).isUsable = true ∧
        { s with shift := s.shiftAfter a }.shiftAfter b = s.shiftAfter (a + b) ∧
        ({ ({ s with repeats := a }.advance) with repeats := b }.advance).shift =
          ({ s with repeats := a + b }.advance).shift := by
  have hbound {g : Int} : |g| < 2 ^ 50 ↔ g.natAbs < 2 ^ 50 := by
    rw [Int.abs_eq_natAbs]
    norm_cast
  simp only [hbound]
  refine ⟨fun d _ g hg => ⟨?_, Grain.ofShift_toShift hg d, fun h hh hlt => ?_⟩, ?_, ?_⟩
  · obtain ⟨n, hn, -, -, hshift⟩ := Grain.exists_toShift_eq hg d
    exact ⟨n, hn, hshift.trans (Shift.ofSteps_eq n d)⟩
  · exact Grain.toShift_lt_toShift hg hh hlt d
  · intro d hd shift hshift
    obtain ⟨hsmall, hback⟩ := Grain.toShift_ofShift hshift hd
    exact ⟨by omega, hback⟩
  · intro s hd hshift a b hab
    obtain ⟨hsmall, hback⟩ := Grain.toShift_ofShift hshift hd
    have hmoved : (Grain.ofShift s.shift s.deltaShift + a).natAbs < 2 ^ 50 := by omega
    have hsum := shiftAfter_shiftAfter (b := b) hmoved
    refine ⟨fun hpos => ?_, Grain.isUsable_toShift hmoved s.deltaShift, hsum,
      advance_advance_shift hsum⟩
    have hraised : Grain.ofShift s.shift s.deltaShift <
        Grain.ofShift s.shift s.deltaShift + a := by omega
    have hlt := Grain.toShift_lt_toShift (by omega) hmoved hraised s.deltaShift
    rwa [hback] at hlt

/-- A machine three grains below zero that moves its shift. -/
def belowZero : Machine :=
  { start ⟨.pixels (-3 / 8), 9, 0⟩ with autoIncrement := ⟨false, false, true⟩ }

theorem advance_additive_belowZero :
    belowZero.deltaShift ≤ maxDeltaShift ∧
      belowZero.shift.IsMultiple belowZero.deltaShift (2 ^ 40) ∧
      belowZero.shiftAfter 3 = .pixels (1 / 8) ∧
      compare belowZero.shift (belowZero.shiftAfter 3) = .lt ∧
      ({ ({ belowZero with repeats := 2 }.advance) with repeats := 1 }.advance).shift =
        ({ belowZero with repeats := 3 }.advance).shift ∧
      Grain.ofShift (Grain.toShift (-100) 6) 6 = -100 ∧
      compare (Grain.toShift 7 6) (Grain.toShift 8 6) = .lt := by
  have hshift : belowZero.shift.IsMultiple belowZero.deltaShift (2 ^ 40) :=
    ⟨-3, by decide, rfl, by norm_num [belowZero, start, initialDeltaShift, abs_div]⟩
  have hafter : belowZero.shiftAfter 3 = .pixels (1 / 8) := by decide +kernel
  obtain ⟨hgrains, -, hmachine⟩ := advance_additive
  obtain ⟨hraised, -, -, -⟩ := hmachine belowZero (by decide) hshift 3 0 (by decide)
  obtain ⟨-, -, -, hsum⟩ := hmachine belowZero (by decide) hshift 2 1 (by decide)
  obtain ⟨-, hback, -⟩ := hgrains 6 le_rfl (-100) (by decide)
  obtain ⟨-, -, hlt⟩ := hgrains 6 le_rfl 7 (by decide)
  exact ⟨by decide, hshift, hafter, hraised (by decide), hsum, hback,
    hlt 8 (by decide) (by decide)⟩

end Machine

end GlyphHints
