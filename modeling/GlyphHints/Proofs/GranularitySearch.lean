import GlyphHints.Proofs.Advancing
import GlyphHints.Shift.Bits
import GlyphHints.Spark.Analysis
import Mathlib.Algebra.Ring.Int.Parity
import Mathlib.Data.Nat.Prime.Basic

/-!
# The delta shift that is found

A shift is whole at the delta shifts from the exponent of its denominator on, so the coarsest of
them gives the fraction in lowest terms. The search for a delta shift at which a nybble can hold
the shift ends at the one closest to where it began, on whichever side that lies. The nybble
found there by counting steps is the grain of the shift and stands for it.
-/
namespace GlyphHints
namespace Shift
variable {q : Rat} {shift : Shift} {d e r start : Nat}

/-- A shift that comes to a whole number of grains. -/
def IsWholeAt (shift : Shift) (d : Nat) : Prop :=
  ∃ (q : Rat) (n : Int), shift.toRat? = some q ∧ q * 2 ^ d = n

theorem isWholeAt_iff : shift.IsWholeAt d ↔ ∃ q, shift.toRat? = some q ∧ isWhole q d = true := by
  simp only [IsWholeAt, isWhole_iff, stepsOf, cast_scale, exists_and_left]

/-! ## The closest delta shift -/

/-- Refining moves only where nothing coarser is whole. -/
theorem not_isWhole_of_refine? (h : refine? q start = some r) (hr : start < r) (he : e < r) :
    isWhole q e = false := by
  have hrange : start :: List.range' (start + 1) (maxDeltaShift - start) =
      List.range' start (maxDeltaShift - start + 1) := rfl
  rw [refine?, hrange] at h
  obtain ⟨-, -, hbefore⟩ := List.find?_range'_eq_some.mp h
  by_contra hw
  have hlater := isWhole_mono (le_max_left e start) (eq_true_of_ne_false hw)
  have hnot := hbefore (max e start) (le_max_right e start) (max_lt he hr)
  simp [hlater] at hnot

/-- Coarsening passes only over what is not near. -/
theorem not_isNear_of_coarsen? (h : coarsen? q d = some r) (hr : r < e) (he : e ≤ d) :
    isNear q e = false := by
  induction d with
  | zero => omega
  | succ d ih =>
    simp only [coarsen?] at h
    split_ifs at h with hnear hwhole
    · cases h
      omega
    · rcases Nat.le_succ_iff.mp he with hle | rfl
      · exact ih h hle
      · exact Bool.eq_false_iff.mpr hnear

theorem fit_closest (h : shift.fit start = .ok d) (he : shift.isRepresentable e = true) :
    ((d : Int) - start).natAbs ≤ ((e : Int) - start).natAbs := by
  obtain ⟨q, hq, hwhole, hnear⟩ := isRepresentable_eq_true.mp he
  unfold fit at h
  split at h
  · rename_i found hfound
    cases h
    rw [hq, Option.bind_some] at hfound
    obtain ⟨r, hr, hd⟩ := Option.bind_eq_some_iff.mp hfound
    -- What is near stays near where the search turned back.
    have hturn (hle : r ≤ e) : d = r := by
      have hself := coarsen?_self (isNear_anti hle hnear)
      exact Option.some.inj (hd.symm.trans hself)
    have hcoarser : d ≤ r := (coarsen?_eq_some hd (refine?_eq_some hr).1).1
    rcases (refine?_eq_some hr).2.1.eq_or_lt with rfl | hlt
    · rcases Nat.lt_or_ge e start with hbelow | habove
      · have hfirst : e ≤ d := by
          by_contra hpassed
          have hfar := not_isNear_of_coarsen? hd (Nat.lt_of_not_ge hpassed) hbelow.le
          exact Bool.false_ne_true (hfar.symm.trans hnear)
        omega
      · have := hturn habove
        omega
    · have habove : r ≤ e := by
        by_contra hbelow
        have hnot := not_isWhole_of_refine? hr hlt (Nat.lt_of_not_ge hbelow)
        exact Bool.false_ne_true (hnot.symm.trans hwhole)
      have := hturn habove
      omega
  · contradiction

theorem fit_isOk_iff (hstart : start ≤ maxDeltaShift) : (∃ d, shift.fit start = .ok d) ↔
    ∃ d ≤ maxDeltaShift, shift.isRepresentable d = true := by
  constructor
  · rintro ⟨d, hd⟩
    exact ⟨d, fit_eq_ok hstart hd⟩
  · rintro ⟨d, hd, hrep⟩
    cases hfit : shift.fit start with
    | ok d => exact ⟨d, rfl⟩
    | error cause =>
      have hnone := (fit_eq_error hfit).2 d hd
      exact absurd (hnone.symm.trans hrep) Bool.false_ne_true

/-! ## The coarsest delta shift -/

theorem coarsest_eq_ok_iff : shift.coarsest = .ok d ↔ d ≤ maxDeltaShift ∧ shift.IsWholeAt d ∧
    ∀ e < d, ¬ shift.IsWholeAt e := by
  simp only [isWholeAt_iff]
  cases hq : shift.toRat? with
  | none => simp [coarsest, hq]
  | some q =>
    have hcoarsest : shift.coarsest = .ok d ↔
        (List.range (maxDeltaShift + 1)).find? (isWhole q) = some d := by
      cases hfind : (List.range (maxDeltaShift + 1)).find? (isWhole q) <;>
        simp [coarsest, hq, hfind]
    rw [hcoarsest, List.find?_range_eq_some, List.mem_range]
    simp only [Option.some.injEq, exists_eq_left', Bool.not_eq_true', Nat.lt_succ_iff,
      Bool.not_eq_true]
    tauto

theorem coarsest_isOk_iff : (∃ d, shift.coarsest = .ok d) ↔
    ∃ d ≤ maxDeltaShift, shift.IsWholeAt d := by
  classical
  constructor
  · rintro ⟨d, hd⟩
    obtain ⟨hle, hwhole, -⟩ := coarsest_eq_ok_iff.mp hd
    exact ⟨d, hle, hwhole⟩
  · rintro ⟨d, hle, hwhole⟩
    have hsome : ∃ d, shift.IsWholeAt d := ⟨d, hwhole⟩
    refine ⟨Nat.find hsome, coarsest_eq_ok_iff.mpr ⟨?_, Nat.find_spec hsome, ?_⟩⟩
    · exact (Nat.find_min' hsome hwhole).trans hle
    · exact fun e => Nat.find_min hsome

theorem coarsest_le_fit (hstart : start ≤ maxDeltaShift) (hd : shift.coarsest = .ok d)
    (he : shift.fit start = .ok e) : d ≤ e := by
  obtain ⟨-, -, hleast⟩ := coarsest_eq_ok_iff.mp hd
  obtain ⟨q, hq, hwhole, -⟩ := isRepresentable_eq_true.mp (fit_eq_ok hstart he).2
  by_contra hlt
  exact hleast e (Nat.lt_of_not_ge hlt) (isWholeAt_iff.mpr ⟨q, hq, hwhole⟩)

/-! ## Lowest terms -/

theorem isWhole_iff_den_dvd : isWhole q d = true ↔ q.den ∣ 2 ^ d := by
  rw [isWhole_iff]
  constructor
  · rintro ⟨n, hn⟩
    have hdvd := Rat.den_dvd n (2 ^ d : Nat)
    rw [← Rat.intCast_div_eq_divInt] at hdvd
    rw [eq_div_of_stepsOf hn, cast_scale]
    exact_mod_cast hdvd
  · rintro ⟨c, hc⟩
    have hpow : (2 : Rat) ^ d = q.den * c := by exact_mod_cast hc
    refine ⟨q.num * c, ?_⟩
    rw [stepsOf, cast_scale, hpow, ← mul_assoc, Rat.mul_den_eq_num]
    push_cast
    rfl

theorem den_of_coarsest (h : shift.coarsest = .ok d) :
    ∃ q, shift.toRat? = some q ∧ q.den = 2 ^ d := by
  obtain ⟨-, hwhole, hleast⟩ := coarsest_eq_ok_iff.mp h
  obtain ⟨q, hq, hwhole⟩ := isWholeAt_iff.mp hwhole
  obtain ⟨e, hle, hden⟩ := (Nat.dvd_prime_pow Nat.prime_two).mp (isWhole_iff_den_dvd.mp hwhole)
  have hsame : e = d := by
    by_contra hne
    refine hleast e (lt_of_le_of_ne hle hne) (isWholeAt_iff.mpr ⟨q, hq, ?_⟩)
    exact isWhole_iff_den_dvd.mpr (hden ▸ dvd_rfl)
  exact ⟨q, hq, hsame ▸ hden⟩

/-- A shift that a 64-bit word stands for. -/
def IsStored (shift : Shift) : Prop := ∃ word, ofBits word = shift

/-- A stored number is a significand of 53 bits, scaled by a power of two. -/
theorem IsStored.exists_eq (h : (pixels q).IsStored) :
    ∃ (m : Nat) (k : Int), m < 2 ^ 53 ∧ |q| = m * 2 ^ k := by
  obtain ⟨word, hword⟩ := h
  have hfraction : word.toNat % hiddenBit < 2 ^ 52 := Nat.mod_lt _ (by decide)
  have hhidden : hiddenBit = 2 ^ 52 := rfl
  have hscaled {m : Nat} {k : Int} (hm : m < 2 ^ 53) (hq : -(m * 2 ^ k : Rat) = q ∨ m * 2 ^ k = q) :
      ∃ (m : Nat) (k : Int), m < 2 ^ 53 ∧ |q| = m * 2 ^ k := by
    have habs : |(m * 2 ^ k : Rat)| = m * 2 ^ k := abs_of_nonneg (by positivity)
    refine ⟨m, k, hm, ?_⟩
    rcases hq with rfl | rfl
    · rw [abs_neg, habs]
    · exact habs
  unfold ofBits at hword
  dsimp only at hword
  split_ifs at hword
  · exact ⟨0, 0, by decide, by simp [← pixels.inj hword]⟩
  · exact hscaled (by omega) (.inl (pixels.inj hword))
  · exact hscaled (by omega) (.inr (pixels.inj hword))
  · exact hscaled (by omega) (.inl (pixels.inj hword))
  · exact hscaled (by omega) (.inr (pixels.inj hword))

/-- A stored number with a fraction has fewer bits in front of its point than it has in all. -/
theorem IsStored.abs_lt (h : (pixels q).IsStored) (hden : q.den ≠ 1) : |q| < 2 ^ 53 := by
  obtain ⟨m, k, hm, hq⟩ := h.exists_eq
  have hk : k ≤ 0 := by
    by_contra hpos
    obtain ⟨j, rfl⟩ := Int.eq_ofNat_of_zero_le (not_le.mp hpos).le
    have hwhole : |q| = ((m * 2 ^ j : Nat) : Rat) := by
      rw [hq]
      push_cast
      rw [zpow_natCast]
    rcases eq_or_eq_neg_of_abs_eq hwhole with rfl | rfl
    · exact hden (Rat.den_natCast _)
    · exact hden (by rw [Rat.den_neg_eq_den, Rat.den_natCast])
  calc |q| = m * 2 ^ k := hq
    _ ≤ m * 1 := by gcongr; exact zpow_le_one_of_nonpos₀ one_le_two hk
    _ < 2 ^ 53 := by rw [mul_one]; exact_mod_cast hm

/-- The steps of a stored shift at its coarsest delta shift are the numerator of its fraction,
unless it is whole. -/
theorem steps_eq_num (h : shift.coarsest = .ok d) (hd : d ≠ 0) (hstored : shift.IsStored) :
    ∃ q, shift.toRat? = some q ∧ shift.steps d = q.num ∧ q.den = 2 ^ d := by
  obtain ⟨q, hq, hden⟩ := den_of_coarsest h
  refine ⟨q, hq, ?_, hden⟩
  have hfraction : q.den ≠ 1 := by
    rw [hden]
    exact (Nat.one_lt_two_pow hd).ne'
  have hnum : stepsOf q d = q.num := by
    rw [stepsOf, cast_scale, ← Rat.mul_den_eq_num, hden]
    push_cast
    rfl
  cases shift with
  | pixels p =>
    obtain rfl : p = q := Option.some.inj hq
    have hsmall : p.num.natAbs < 2 ^ 63 := by
      have hpow : (2 : Rat) ^ d ≤ 2 ^ 6 := pow_le_pow_right₀ one_le_two (coarsest_le h)
      have habs : (p.num.natAbs : Rat) = |p| * 2 ^ d := by
        rw [Nat.cast_natAbs, Int.cast_abs, ← hnum, abs_stepsOf]
      have hlt : (p.num.natAbs : Rat) < 2 ^ 63 := calc
        (p.num.natAbs : Rat) = |p| * 2 ^ d := habs
        _ ≤ 2 ^ 53 * 2 ^ 6 := by gcongr; exact (hstored.abs_lt hfraction).le
        _ < 2 ^ 63 := by norm_num
      exact_mod_cast hlt
    rw [steps, hnum, Rounding.truncate_intCast, saturate_of_natAbs_lt hsmall]
  | negativeZero =>
    obtain rfl : 0 = q := Option.some.inj hq
    exact absurd rfl hfraction
  | infinite _ => simp [toRat?] at hq
  | nan _ _ => simp [toRat?] at hq

theorem lowest_terms (h : shift.coarsest = .ok d) (hstored : shift.IsStored) :
    (d = 0 ∨ Odd (shift.steps d)) ∧ Int.gcd (shift.steps d) (2 ^ d) = 1 := by
  by_cases hd : d = 0
  · subst hd
    exact ⟨.inl rfl, by rw [pow_zero, Int.gcd_one]⟩
  · obtain ⟨q, -, hnum, hden⟩ := steps_eq_num h hd hstored
    have hcoprime : Nat.Coprime q.num.natAbs (2 ^ d) := hden ▸ q.reduced
    rw [hnum]
    refine ⟨.inr ?_, ?_⟩
    · have htwo := Nat.Coprime.coprime_dvd_right (dvd_pow_self 2 hd) hcoprime
      exact Int.natAbs_odd.mp (Nat.coprime_two_right.mp htwo)
    · rw [Int.gcd, Int.natAbs_pow]
      exact hcoprime

theorem fractionText_of_coarsest (h : shift.coarsest = .ok d) : Spark.fractionText shift =
    toString (shift.steps d) ++ if d = 0 then "" else "/" ++ toString (2 ^ d) := by
  unfold Spark.fractionText
  rw [h]
  cases d with
  | zero => simp
  | succ d => simp [scale, String.append_assoc]

/-! ## The nybble -/

/-- Counting steps gives the grain of a shift, and the grain gives the shift back. -/
theorem nybble_of_steps (hu : shift.isUsable = true) (h : shift.isRepresentable d = true) :
    (0 ≤ Grain.ofSteps (shift.steps d) ∧ Grain.ofSteps (shift.steps d) ≤ 15) ∧
      Grain.ofSteps (shift.steps d) = Grain.ofShift shift d ∧
      Grain.toShift (Grain.ofSteps (shift.steps d)) d = shift := by
  obtain ⟨n, hn, hle, rfl⟩ := (isRepresentable_iff hu).mp h
  rw [steps_ofSteps (by omega), Grain.ofShift_ofSteps (by omega),
    Grain.toShift_ofSteps hn (by omega)]
  exact ⟨Grain.ofSteps_bounds hle, rfl, rfl⟩

/-- From any start the search finds the closest delta shift at which a nybble can hold the shift,
if there is one. The coarsest delta shift is the first at which the shift is whole; there its
fraction is in lowest terms, and nothing coarser is ever found. At every delta shift that will
do, the steps, the grain and the shift itself determine the same nybble. -/
theorem granularity_search (shift : Shift) :
    (∀ start ≤ maxDeltaShift,
      ((∃ d, shift.fit start = .ok d) ↔
        ∃ d ≤ maxDeltaShift, shift.isRepresentable d = true) ∧
      (∀ d, shift.fit start = .ok d → d ≤ maxDeltaShift ∧ shift.isRepresentable d = true ∧
        ∀ e ≤ maxDeltaShift, shift.isRepresentable e = true →
          ((d : Int) - start).natAbs ≤ ((e : Int) - start).natAbs) ∧
      (shift.fit start = .ok start ↔ shift.isRepresentable start = true) ∧
      ∀ cause, shift.fit start = .error cause → cause = .granularityExhausted shift) ∧
    (∀ d, shift.coarsest = .ok d ↔
      d ≤ maxDeltaShift ∧ shift.IsWholeAt d ∧ ∀ e < d, ¬ shift.IsWholeAt e) ∧
    ((∃ d, shift.coarsest = .ok d) ↔ ∃ d ≤ maxDeltaShift, shift.IsWholeAt d) ∧
    (∀ cause, shift.coarsest = .error cause → cause = .granularityExhausted shift) ∧
    (∀ d, shift.coarsest = .ok d →
      (∀ start ≤ maxDeltaShift, ∀ e, shift.fit start = .ok e → d ≤ e) ∧
      (shift.IsStored →
        (d = 0 ∨ Odd (shift.steps d)) ∧ Int.gcd (shift.steps d) (2 ^ d) = 1 ∧
          Spark.fractionText shift =
            toString (shift.steps d) ++ if d = 0 then "" else "/" ++ toString (2 ^ d))) ∧
    ∀ d, shift.isUsable = true → shift.isRepresentable d = true →
      (0 ≤ Grain.ofSteps (shift.steps d) ∧ Grain.ofSteps (shift.steps d) ≤ 15) ∧
        Grain.ofSteps (shift.steps d) = Grain.ofShift shift d ∧
        Grain.toShift (Grain.ofSteps (shift.steps d)) d = shift := by
  refine ⟨fun start hstart => ⟨fit_isOk_iff hstart, ?_, ?_, ?_⟩, fun d => coarsest_eq_ok_iff,
    coarsest_isOk_iff, fun cause => coarsest_eq_error, fun d hd => ⟨?_, ?_⟩,
    fun d => nybble_of_steps⟩
  · intro d hd
    obtain ⟨hle, hrep⟩ := fit_eq_ok hstart hd
    exact ⟨hle, hrep, fun e _ => fit_closest hd⟩
  · exact ⟨fun h => (fit_eq_ok hstart h).2, fit_self⟩
  · exact fun cause hcause => (fit_eq_error hcause).1
  · exact fun start hstart e => coarsest_le_fit hstart hd
  · intro hstored
    obtain ⟨hodd, hgcd⟩ := lowest_terms hd hstored
    exact ⟨hodd, hgcd, fractionText_of_coarsest hd⟩

/-- Three grains at delta shift 4 and six at 5; twelve at 6 are too many. -/
def threeSixteenths : Shift := .pixels (3 / 16)

theorem isStored_threeSixteenths : threeSixteenths.IsStored :=
  ⟨0x3FC8000000000000, by decide +kernel⟩

theorem granularity_search_threeSixteenths :
    (threeSixteenths.fit 6 = .ok 5 ∧ ∀ e ≤ maxDeltaShift,
      threeSixteenths.isRepresentable e = true → ((5 : Int) - 6).natAbs ≤ ((e : Int) - 6).natAbs) ∧
    (threeSixteenths.coarsest = .ok 4 ∧ (4 ≤ 5) ∧ threeSixteenths.IsStored ∧
      Odd (threeSixteenths.steps 4) ∧ Int.gcd (threeSixteenths.steps 4) (2 ^ 4) = 1 ∧
      Spark.fractionText threeSixteenths = "3/16") ∧
    (threeSixteenths.isUsable = true ∧ threeSixteenths.isRepresentable 5 = true ∧
      Grain.ofSteps (threeSixteenths.steps 5) = Grain.ofShift threeSixteenths 5 ∧
      Grain.toShift (Grain.ofSteps (threeSixteenths.steps 5)) 5 = threeSixteenths) := by
  have hfit : threeSixteenths.fit 6 = .ok 5 := by decide +kernel
  have hcoarsest : threeSixteenths.coarsest = .ok 4 := by decide +kernel
  have hsteps : threeSixteenths.steps 4 = 3 := by decide +kernel
  have husable : threeSixteenths.isUsable = true := by decide +kernel
  obtain ⟨hsearch, -, -, -, hlowest, hnybble⟩ := granularity_search threeSixteenths
  obtain ⟨-, hclosest, -⟩ := hsearch 6 le_rfl
  obtain ⟨-, hrep, hclosest⟩ := hclosest 5 hfit
  obtain ⟨hle, hterms⟩ := hlowest 4 hcoarsest
  obtain ⟨hodd, hgcd, htext⟩ := hterms isStored_threeSixteenths
  refine ⟨⟨hfit, hclosest⟩, ⟨hcoarsest, hle 6 le_rfl 5 hfit, isStored_threeSixteenths,
    hodd.resolve_left (by decide), hgcd, ?_⟩, husable, hrep, (hnybble 5 husable hrep).2⟩
  rw [htext, hsteps]
  rfl

end Shift
end GlyphHints
