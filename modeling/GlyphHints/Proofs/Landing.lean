import GlyphHints.Proofs.Distances
import GlyphHints.Proofs.EncoderSteps
import GlyphHints.Proofs.PlanSections

/-!
# From one hint to the next

A machine that stands at a hint and advances by no more than a distance is not carried beyond the
next hint in that field, and by the distance itself it is carried there.
-/
namespace GlyphHints

/-- Grains past a shift and not past another one is a shift not past the other one. -/
theorem Shift.exists_moved {a b : Shift} {d n : Nat} (hua : a.isUsable = true)
    (hub : b.isUsable = true) (ha : a.isRepresentable d = true) (hb : b.isRepresentable d = true)
    (hle : (n : Int) ≤ Grain.ofShift b d - Grain.ofShift a d) :
    ∃ j k : Int, Grain.toShift (Grain.ofShift a d + n) d = ofSteps j d ∧ b = ofSteps k d ∧
      j ≤ k ∧ ((n : Int) = Grain.ofShift b d - Grain.ofShift a d → j = k) := by
  obtain ⟨hlow, -⟩ := Grain.ofShift_bounds hua ha
  obtain ⟨k, hk, hkle, rfl⟩ := (isRepresentable_iff hub).mp hb
  have hgrain : Grain.ofShift (ofSteps k d) d = Grain.ofSteps k := Grain.ofShift_ofSteps (by omega) d
  have hhigh := (Grain.ofSteps_bounds hkle).2
  rw [hgrain] at hle ⊢
  obtain ⟨j, hj, hjgrain, hjlow, hjhigh⟩ := Grain.exists_ofSteps_eq (Grain.ofShift a d + n)
  have hmoved : Grain.ofSteps j ≤ Grain.ofSteps k := by omega
  refine ⟨j, k, ?_, rfl, (Grain.ofSteps_le_ofSteps_iff hk).mp hmoved, fun heq => ?_⟩
  · rw [← hjgrain]
    exact Grain.toShift_ofSteps hj (by omega) d
  · have hback : Grain.ofSteps k ≤ Grain.ofSteps j := by omega
    exact le_antisymm ((Grain.ofSteps_le_ofSteps_iff hk).mp hmoved)
      ((Grain.ofSteps_le_ofSteps_iff hj).mp hback)

namespace Machine
variable {s : Machine} {h x : Hint} {field : Field}

/-- A field is not beyond that of a hint. -/
def Within (s : Machine) (x : Hint) : Field → Prop
  | .ppem => s.ppem ≤ x.ppem
  | .point => ∃ p ∈ x.point, s.point ≤ p
  | .shift => ∃ a b, s.shift = .pixels a ∧ x.shift = .pixels b ∧ a ≤ b

/-- A field is that of a hint. -/
def Attains (s : Machine) (x : Hint) : Field → Prop
  | .ppem => s.ppem = x.ppem
  | .point => x.point = some s.point
  | .shift => s.shift = x.shift

/-- The machine has been brought to a hint. -/
structure At (s : Machine) (h : Hint) : Prop where
  ppem : s.ppem = h.ppem
  shift : s.shift = h.shift
  point : ∀ p ∈ h.point, s.point = p

/-- Two hints between which a machine may advance. -/
structure Adjoins (s : Machine) (h x : Hint) : Prop where
  usable : h.shift.isUsable = true
  usable_next : x.shift.isUsable = true
  representable : h.shift.isRepresentable s.deltaShift = true
  representable_next : x.shift.isRepresentable s.deltaShift = true
  keyOf_eq : s.autoIncrement.keyOf h = s.autoIncrement.keyOf x
  ppem_le : x.ppem ≤ greatestWord
  point_le : ∀ p ∈ x.point, p ≤ greatestWord

theorem advance_ppem (h : s.autoIncrement.ppem = true) :
    s.advance.ppem = cappedAdd s.ppem s.repeats := if_pos h

theorem advance_point (h : s.autoIncrement.point = true) :
    s.advance.point = cappedAdd s.point s.repeats := if_pos h

theorem advance_shift (h : s.autoIncrement.shift = true) :
    s.advance.shift = s.shiftAfter s.repeats := if_pos h

/-- No field is carried past its distance. -/
theorem within_advance (hs : s.At h) (hx : s.Adjoins h x) {n : Int}
    (hfield : s.autoIncrement.selects field = true)
    (hn : h.distance? x s.deltaShift field = some n) (hle : (s.repeats : Int) ≤ n) :
    s.advance.Within x field := by
  cases field with
  | ppem =>
    have hsum : s.advance.ppem ≤ h.ppem + s.repeats := by
      rw [advance_ppem hfield, hs.ppem]
      exact Nat.min_le_left _ _
    have hn : (x.ppem : Int) - h.ppem = n := Option.some.inj hn
    change s.advance.ppem ≤ x.ppem
    omega
  | point =>
    obtain ⟨a, ha, hn⟩ := Option.bind_eq_some_iff.mp hn
    obtain ⟨b, hb, rfl⟩ := Option.map_eq_some_iff.mp hn
    have hsum : s.advance.point ≤ a + s.repeats := by
      rw [advance_point hfield, hs.point a ha]
      exact Nat.min_le_left _ _
    exact ⟨b, hb, by omega⟩
  | shift =>
    have hn : Grain.ofShift x.shift s.deltaShift - Grain.ofShift h.shift s.deltaShift = n :=
      Option.some.inj hn
    obtain ⟨j, k, hmoved, hshift, hjk, -⟩ := Shift.exists_moved hx.usable hx.usable_next
      hx.representable hx.representable_next (hn ▸ hle)
    have hadvance : s.advance.shift = Shift.ofSteps j s.deltaShift := by
      rw [advance_shift hfield, shiftAfter, hs.shift, hmoved]
    have hpos : (0 : Rat) < scale s.deltaShift := by
      rw [cast_scale]
      positivity
    exact ⟨_, _, hadvance, hshift,
      div_le_div_of_nonneg_right (Int.cast_le.mpr hjk) hpos.le⟩

/-- The field whose distance is the repeat is carried to the next hint. -/
theorem attains_advance (hs : s.At h) (hx : s.Adjoins h x)
    (hfield : s.autoIncrement.selects field = true)
    (hn : h.distance? x s.deltaShift field = some (s.repeats : Int)) :
    s.advance.Attains x field := by
  cases field with
  | ppem =>
    have hn : (x.ppem : Int) - h.ppem = s.repeats := Option.some.inj hn
    have hsum : h.ppem + s.repeats = x.ppem := by omega
    change s.advance.ppem = x.ppem
    rw [advance_ppem hfield, hs.ppem, cappedAdd_of_le (hsum ▸ hx.ppem_le), hsum]
  | point =>
    obtain ⟨a, ha, hn⟩ := Option.bind_eq_some_iff.mp hn
    obtain ⟨b, hb, hn⟩ := Option.map_eq_some_iff.mp hn
    have hsum : a + s.repeats = b := by omega
    change x.point = some s.advance.point
    rw [advance_point hfield, hs.point a ha, cappedAdd_of_le (hsum ▸ hx.point_le b hb), hsum]
    exact hb
  | shift =>
    have hn : Grain.ofShift x.shift s.deltaShift - Grain.ofShift h.shift s.deltaShift =
        s.repeats := Option.some.inj hn
    obtain ⟨j, k, hmoved, hshift, -, hjk⟩ := Shift.exists_moved hx.usable hx.usable_next
      hx.representable hx.representable_next hn.ge
    change s.advance.shift = x.shift
    rw [advance_shift hfield, shiftAfter, hs.shift, hmoved, hshift, hjk hn.symm]

/-- Where every selected field is carried to the next hint, the machine is, since the two hints
agree in the others. -/
theorem At.advance (hs : s.At h) (hx : s.Adjoins h x)
    (hattains : ∀ field, s.autoIncrement.selects field = true → s.advance.Attains x field) :
    s.advance.At x := by
  have hkey := hx.keyOf_eq
  simp only [Mask.keyOf, GroupKey.mk.injEq] at hkey
  obtain ⟨hppem, hshift, hpoint⟩ := hkey
  constructor
  · by_cases hfield : s.autoIncrement.ppem = true
    · exact hattains .ppem hfield
    · rw [if_neg hfield, if_neg hfield] at hppem
      exact (if_neg hfield).trans (hs.ppem.trans (Option.some.inj hppem))
  · by_cases hfield : s.autoIncrement.shift = true
    · exact hattains .shift hfield
    · rw [if_neg hfield, if_neg hfield] at hshift
      exact (if_neg hfield).trans (hs.shift.trans (Option.some.inj hshift))
  · intro p hp
    by_cases hfield : s.autoIncrement.point = true
    · have hmeets : x.point = some s.advance.point := hattains .point hfield
      exact Option.some.inj (hmeets.symm.trans hp)
    · rw [if_neg hfield, if_neg hfield] at hpoint
      exact (if_neg hfield).trans (hs.point p ((Option.some.inj hpoint).trans hp))

/-- Advancing by the smallest distance that rises carries no field beyond the next hint, and one
to it. -/
theorem advance_least (hs : s.At h) (hx : s.Adjoins h x)
    (hn : Encoder.inferredRepeat? s h x = some s.repeats) :
    (∀ field, s.Raises h x field → s.advance.Within x field) ∧
      ∃ field, s.Raises h x field ∧ s.advance.Attains x field := by
  obtain ⟨hpos, ⟨field, hfield, hdistance⟩, hleast⟩ := Encoder.inferredRepeat?_eq_some hn
  constructor
  · rintro other ⟨hother, m, hm, hposm⟩
    exact within_advance hs hx hother hm (hleast other m hother hm hposm)
  · have hraises : s.Raises h x field := ⟨hfield, _, hdistance, Int.natCast_pos.mpr hpos⟩
    exact ⟨field, hraises, attains_advance hs hx hfield hdistance⟩

/-- A field that is selected alone brings the machine to the next hint. -/
theorem at_advance_of_sole (hs : s.At h) (hx : s.Adjoins h x)
    (hn : Encoder.inferredRepeat? s h x = some s.repeats)
    (hsole : ∀ other, s.autoIncrement.selects other = true → other = field) :
    s.advance.At x := by
  obtain ⟨-, landed, hraises, hattains⟩ := advance_least hs hx hn
  apply hs.advance hx
  intro other hother
  rw [hsole other hother, ← hsole landed hraises.1]
  exact hattains

end Machine

end GlyphHints
