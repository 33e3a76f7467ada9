import GlyphHints.Proofs.Rounding

/-!
# Grains and the search for a delta shift

At delta shift `d` a shift is representable if it is a whole number of steps, at most eight.
Refining keeps a shift whole and coarsening keeps it near zero, so the delta shifts at which
it is representable form an interval. The search of `Shift.fit` therefore succeeds from any
start from which one exists, and where it starts inside the interval it does not move.
-/
namespace GlyphHints

@[simp] theorem cast_scale (d : Nat) : (scale d : Rat) = 2 ^ d := by simp [scale]

namespace Shift

/-- The shift of a number of steps. -/
def ofSteps (n : Int) (d : Nat) : Shift := .pixels (n / (scale d : Rat))

theorem stepsOf_div (n : Int) (d : Nat) : stepsOf (n / (scale d : Rat)) d = n := by
  rw [stepsOf, cast_scale]
  exact div_mul_cancel₀ _ (pow_ne_zero d two_ne_zero)

theorem eq_div_of_stepsOf {q : Rat} {d : Nat} {n : Int} (h : stepsOf q d = n) :
    q = n / (scale d : Rat) := by
  rw [← h, stepsOf, cast_scale]
  exact (mul_div_cancel_right₀ _ (pow_ne_zero d two_ne_zero)).symm

theorem stepsOf_succ (q : Rat) (d : Nat) : stepsOf q (d + 1) = 2 * stepsOf q d := by
  simp only [stepsOf, cast_scale]
  ring

theorem isWhole_iff {q : Rat} {d : Nat} : isWhole q d = true ↔ ∃ n : Int, stepsOf q d = n := by
  constructor
  · exact fun h => ⟨_, Rat.eq_num_of_isInt h⟩
  · rintro ⟨n, hn⟩
    simp [isWhole, hn, Rat.isInt]

theorem isNear_iff {q : Rat} {d : Nat} : isNear q d = true ↔ |stepsOf q d| ≤ 8 := by
  simp [isNear, Rounding.abs_eq_abs]

theorem isWhole_mono {q : Rat} {d e : Nat} (hde : d ≤ e) (h : isWhole q d = true) :
    isWhole q e = true := by
  induction hde with
  | refl => exact h
  | step _ ih =>
    obtain ⟨n, hn⟩ := isWhole_iff.mp ih
    exact isWhole_iff.mpr ⟨2 * n, by rw [stepsOf_succ, hn]; push_cast; rfl⟩

theorem isNear_anti {q : Rat} {d e : Nat} (hde : d ≤ e) (h : isNear q e = true) :
    isNear q d = true := by
  induction hde with
  | refl => exact h
  | @step e _ ih =>
    have hpos := abs_nonneg (stepsOf q e)
    rw [isNear_iff, stepsOf_succ, abs_mul, abs_two] at h
    exact ih (isNear_iff.mpr (by linarith))

theorem isRepresentable_eq_true {shift : Shift} {d : Nat} : shift.isRepresentable d = true ↔
    ∃ q, shift.toRat? = some q ∧ isWhole q d = true ∧ isNear q d = true := by
  unfold isRepresentable
  cases shift.toRat? <;> simp

/-- Nonzero shifts are representable exactly if they are at most eight steps away. -/
theorem isRepresentable_iff {shift : Shift} (hu : shift.isUsable = true) {d : Nat} :
    shift.isRepresentable d = true ↔
      ∃ n : Int, n ≠ 0 ∧ n.natAbs ≤ 8 ∧ shift = ofSteps n d := by
  obtain ⟨q, rfl, hq⟩ : ∃ q, shift = .pixels q ∧ q ≠ 0 := by
    cases shift <;> simp_all [isUsable]
  have hcast (n : Int) : |(n : Rat)| ≤ 8 ↔ n.natAbs ≤ 8 := by
    rw [← Int.cast_abs, Int.abs_eq_natAbs]
    norm_cast
  simp only [isRepresentable_eq_true, toRat?, Option.some.injEq, exists_eq_left', isWhole_iff,
    isNear_iff, ofSteps, pixels.injEq]
  constructor
  · rintro ⟨⟨n, hn⟩, hnear⟩
    have hqn := eq_div_of_stepsOf hn
    refine ⟨n, ?_, (hcast n).mp (hn ▸ hnear), hqn⟩
    rintro rfl
    exact hq (by simpa using hqn)
  · rintro ⟨n, _, hle, rfl⟩
    exact ⟨⟨n, stepsOf_div n d⟩, by rw [stepsOf_div]; exact (hcast n).mpr hle⟩

/-! ## The search -/

theorem refine?_eq_some {q : Rat} {d r : Nat} (h : refine? q d = some r) :
    isWhole q r = true ∧ d ≤ r ∧ (d ≤ maxDeltaShift → r ≤ maxDeltaShift) := by
  have hr := List.mem_of_find?_eq_some h
  simp only [List.mem_cons, List.mem_range'_1] at hr
  exact ⟨List.find?_some h, by omega, by omega⟩

theorem refine?_eq_none {q : Rat} {d : Nat} (h : refine? q d = none) {r : Nat}
    (hr : r ≤ maxDeltaShift) : isWhole q r = false := by
  rw [Bool.eq_false_iff]
  intro hw
  refine List.find?_eq_none.mp h (max d r) ?_ (isWhole_mono (le_max_right d r) hw)
  simp only [List.mem_cons, List.mem_range'_1]
  omega

theorem coarsen?_eq_some {q : Rat} {d r : Nat} (h : coarsen? q d = some r)
    (hw : isWhole q d = true) : r ≤ d ∧ isWhole q r = true ∧ isNear q r = true := by
  induction d with
  | zero =>
    simp only [coarsen?, Option.ite_none_right_eq_some, Option.some.injEq] at h
    obtain ⟨hn, rfl⟩ := h
    exact ⟨le_rfl, hw, hn⟩
  | succ d ih =>
    simp only [coarsen?] at h
    split_ifs at h with hn hd
    · cases h
      exact ⟨le_rfl, hw, hn⟩
    · obtain ⟨hle, hr⟩ := ih h hd
      exact ⟨hle.trans d.le_succ, hr⟩

theorem coarsen?_eq_none {q : Rat} {d : Nat} (h : coarsen? q d = none) {r : Nat} (hr : r ≤ d)
    (hw : isWhole q r = true) : isNear q r = false := by
  induction d with
  | zero =>
    obtain rfl := Nat.le_zero.mp hr
    simpa [coarsen?] using h
  | succ d ih =>
    simp only [coarsen?] at h
    split_ifs at h with hn hd
    · rcases Nat.le_succ_iff.mp hr with hle | rfl
      · exact ih h hle
      · exact Bool.eq_false_iff.mpr hn
    · rcases Nat.le_succ_iff.mp hr with hle | rfl
      · exact absurd (isWhole_mono hle hw) hd
      · exact Bool.eq_false_iff.mpr hn

theorem coarsen?_self {q : Rat} {d : Nat} (h : isNear q d = true) : coarsen? q d = some d := by
  cases d <;> simp [coarsen?, h]

/-- A delta shift that will do is kept. -/
theorem fit_self {shift : Shift} {d : Nat} (h : shift.isRepresentable d = true) :
    shift.fit d = .ok d := by
  obtain ⟨q, hq, hw, hn⟩ := isRepresentable_eq_true.mp h
  have hr : refine? q d = some d := by simp [refine?, hw]
  simp [fit, hq, hr, coarsen?_self hn]

theorem fit_eq_ok {shift : Shift} {d r : Nat} (hd : d ≤ maxDeltaShift)
    (h : shift.fit d = .ok r) : r ≤ maxDeltaShift ∧ shift.isRepresentable r = true := by
  unfold fit at h
  split at h
  · rename_i r' hr
    cases h
    obtain ⟨q, hq, hr⟩ := Option.bind_eq_some_iff.mp hr
    obtain ⟨e, he, hr⟩ := Option.bind_eq_some_iff.mp hr
    obtain ⟨hwe, _, hle⟩ := refine?_eq_some he
    obtain ⟨hre, hw, hn⟩ := coarsen?_eq_some hr hwe
    exact ⟨hre.trans (hle hd), isRepresentable_eq_true.mpr ⟨q, hq, hw, hn⟩⟩
  · contradiction

/-- The search fails only if no delta shift will do. -/
theorem fit_eq_error {shift : Shift} {d : Nat} {e : Error} (h : shift.fit d = .error e) :
    e = .granularityExhausted shift ∧ ∀ r ≤ maxDeltaShift, shift.isRepresentable r = false := by
  unfold fit at h
  split at h
  · contradiction
  · rename_i hnone
    cases h
    refine ⟨rfl, fun r hr => Bool.eq_false_iff.mpr fun hrep => ?_⟩
    obtain ⟨q, hq, hw, hn⟩ := isRepresentable_eq_true.mp hrep
    simp only [hq, Option.bind_some, Option.bind_eq_none_iff] at hnone
    cases he : refine? q d with
    | none => exact absurd hw (Bool.eq_false_iff.mp (refine?_eq_none he hr))
    | some e =>
      have hwe := (refine?_eq_some he).1
      have hall {s : Nat} := coarsen?_eq_none (hnone e he) (r := s)
      -- Beyond the refined delta shift the shift is no nearer than at it.
      rcases le_total r e with hre | her
      · exact absurd hn (Bool.eq_false_iff.mp (hall hre hw))
      · exact absurd (isNear_anti her hn) (Bool.eq_false_iff.mp (hall le_rfl hwe))

theorem coarsest_of_representable {shift : Shift} {r : Nat} (hr : r ≤ maxDeltaShift)
    (h : shift.isRepresentable r = true) :
    ∃ d, shift.coarsest = .ok d ∧ shift.isRepresentable d = true := by
  obtain ⟨q, hq, hw, hn⟩ := isRepresentable_eq_true.mp h
  cases hf : (List.range (maxDeltaShift + 1)).find? (isWhole q) with
  | none => exact absurd hw (List.find?_eq_none.mp hf r (List.mem_range.mpr (by omega)))
  | some d =>
    obtain ⟨hwd, _, hleast⟩ := List.find?_range_eq_some.mp hf
    have hd : d ≤ r := by
      by_contra hlt
      simpa [hw] using hleast r (by omega)
    exact ⟨d, by simp [coarsest, hq, hf],
      isRepresentable_eq_true.mpr ⟨q, hq, hwd, isNear_anti hd hn⟩⟩

theorem coarsest_eq_error {shift : Shift} {e : Error} (h : shift.coarsest = .error e) :
    e = .granularityExhausted shift := by
  unfold coarsest at h
  split at h <;> cases h
  rfl

/-! ## Steps and grains -/

theorem steps_ofSteps {n : Int} (h : n.natAbs < 2 ^ 63) (d : Nat) : (ofSteps n d).steps d = n := by
  simp only [ofSteps, steps, stepsOf_div, Rounding.truncate_intCast, saturate_of_natAbs_lt h]

theorem isUsable_ofSteps {n : Int} (hn : n ≠ 0) (d : Nat) : (ofSteps n d).isUsable = true := by
  simp [ofSteps, isUsable, hn]

end Shift

namespace Grain

theorem ofSteps_bounds {n : Int} (h : n.natAbs ≤ 8) : 0 ≤ ofSteps n ∧ ofSteps n ≤ 15 := by
  unfold ofSteps
  split_ifs <;> omega

theorem ofSteps_le_ofSteps_iff {m n : Int} (hn : n ≠ 0) :
    ofSteps m ≤ ofSteps n ↔ m ≤ n := by
  unfold ofSteps
  split_ifs <;> omega

theorem toShift_ofSteps {n : Int} (hn : n ≠ 0) (h : n.natAbs < 2 ^ 53) (d : Nat) :
    toShift (ofSteps n) d = Shift.ofSteps n d := by
  have hs : ofSteps n - 8 + (if 8 ≤ ofSteps n then 1 else 0) = n := by
    unfold ofSteps
    split_ifs <;> omega
  simp only [toShift, hs, Rounding.toPrecision_intCast h, Shift.ofSteps]

/-- Every grain is that of a number of steps other than zero. -/
theorem exists_ofSteps_eq (grain : Int) : ∃ n : Int, n ≠ 0 ∧ ofSteps n = grain ∧
    grain - 8 ≤ n ∧ n ≤ grain - 7 := by
  by_cases hlow : grain < 8
  · refine ⟨grain - 8, by omega, ?_, by omega, by omega⟩
    rw [ofSteps, if_neg (by omega)]
    omega
  · refine ⟨grain - 7, by omega, ?_, by omega, by omega⟩
    rw [ofSteps, if_pos (by omega)]
    omega

/-- The grains of a nybble stand for the steps from -8 to 8 without zero. -/
theorem exists_steps (grain d : Nat) (h : grain < 16) :
    ∃ k : Int, k ≠ 0 ∧ k.natAbs ≤ 8 ∧ toShift grain d = Shift.ofSteps k d := by
  obtain ⟨k, hk, hgrain, hlow, hhigh⟩ := exists_ofSteps_eq grain
  exact ⟨k, hk, by omega, hgrain ▸ toShift_ofSteps hk (by omega) d⟩

theorem ofShift_ofSteps {n : Int} (h : n.natAbs < 2 ^ 52) (d : Nat) :
    ofShift (Shift.ofSteps n d) d = ofSteps n := by
  have hstep : (n / (scale d : Rat)) * (scale d : Rat) = n := Shift.stepsOf_div n d
  have hmoved : Rounding.toPrecision ((n : Rat) + 8) = ((n + 8 : Int) : Rat) := by
    rw [← Rounding.toPrecision_intCast (show (n + 8).natAbs < 2 ^ 53 by omega)]
    push_cast
    rfl
  have hskip : ((n + 8 : Int) : Rat) - (if (0 : Rat) < n then 1 else 0) = (ofSteps n : Int) := by
    have hpos : (0 : Rat) < n ↔ 0 < n := by norm_cast
    unfold ofSteps
    simp only [hpos]
    split_ifs <;> push_cast <;> ring
  have hsmall : (ofSteps n).natAbs < 2 ^ 53 := by
    unfold ofSteps
    split_ifs <;> omega
  simp only [ofShift, Shift.ofSteps, hstep, hmoved, hskip, Rounding.toPrecision_intCast hsmall,
    Rounding.truncate_intCast]
  exact saturate_of_natAbs_lt (by omega)

end Grain

end GlyphHints
