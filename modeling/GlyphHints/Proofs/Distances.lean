import GlyphHints.Encoder
import GlyphHints.Proofs.Ascending

/-!
# Distances between hints

A hint lies some distance from the next one in each field that both of them have, the shift
being counted in grains. The encoder repeats by the smallest distance that rises.
-/
namespace GlyphHints

/-- The fields that a mask selects from. -/
inductive Field where
  | ppem
  | point
  | shift
deriving DecidableEq

theorem Field.exists_iff {P : Field → Prop} :
    (∃ field, P field) ↔ P .ppem ∨ P .shift ∨ P .point := by
  constructor
  · rintro ⟨field, h⟩
    cases field with
    | ppem => exact .inl h
    | shift => exact .inr (.inl h)
    | point => exact .inr (.inr h)
  · rintro (h | h | h) <;> exact ⟨_, h⟩

def Mask.selects (m : Mask) : Field → Bool
  | .ppem => m.ppem
  | .point => m.point
  | .shift => m.shift

/-- How far a field lies from one hint to another, if both have it. -/
def Hint.distance? (h x : Hint) (deltaShift : Nat) : Field → Option Int
  | .ppem => some ((x.ppem : Int) - h.ppem)
  | .point => h.point.bind fun a => x.point.map fun (b : Nat) => (b : Int) - a
  | .shift => some (Grain.ofShift x.shift deltaShift - Grain.ofShift h.shift deltaShift)

namespace Machine

/-- A selected field has to rise from one hint to the next. -/
def Raises (s : Machine) (h x : Hint) (field : Field) : Prop :=
  s.autoIncrement.selects field = true ∧ ∃ n ∈ h.distance? x s.deltaShift field, 0 < n

end Machine

namespace Encoder
variable {s : Machine} {h x : Hint}

theorem mem_distances_iff {n : Int} : n ∈ distances s h x ↔
    ∃ field, s.autoIncrement.selects field = true ∧ h.distance? x s.deltaShift field = some n := by
  rw [Field.exists_iff]
  unfold distances Hint.distance? Mask.selects
  cases h.point <;> cases x.point <;> simp [eq_comm (a := n)]

theorem inferredRepeat?_eq_none_iff :
    inferredRepeat? s h x = none ↔ ∀ field, ¬ s.Raises h x field := by
  simp only [inferredRepeat?, Option.map_eq_none_iff, leastBy_eq_none,
    List.filter_eq_nil_iff, mem_distances_iff]
  constructor
  · rintro hnone field ⟨hfield, n, hn, hpos⟩
    exact hnone n ⟨field, hfield, hn⟩ (decide_eq_true hpos)
  · rintro hnone n ⟨field, hfield, hn⟩ hpos
    exact hnone field ⟨hfield, n, hn, of_decide_eq_true hpos⟩

/-- The repeat is one of the distances that rise, and no other of them is smaller. -/
theorem inferredRepeat?_eq_some {n : Nat} (hn : inferredRepeat? s h x = some n) :
    0 < n ∧ (∃ field, s.autoIncrement.selects field = true ∧
      h.distance? x s.deltaShift field = some (n : Int)) ∧
      ∀ field m, s.autoIncrement.selects field = true →
        h.distance? x s.deltaShift field = some m → 0 < m → (n : Int) ≤ m := by
  obtain ⟨least, hleast, rfl⟩ := Option.map_eq_some_iff.mp hn
  obtain ⟨hmem, hle⟩ := leastBy_eq_some hleast
  obtain ⟨hmem, hpos⟩ := List.mem_filter.mp hmem
  have hpos : 0 < least := of_decide_eq_true hpos
  have hcast : (least.toNat : Int) = least := Int.toNat_of_nonneg hpos.le
  rw [hcast]
  refine ⟨by omega, mem_distances_iff.mp hmem, ?_⟩
  intro field m hfield hm hposm
  have hm := mem_distances_iff.mpr ⟨field, hfield, hm⟩
  exact Std.isLE_compare.mp (hle m (List.mem_filter.mpr ⟨hm, decide_eq_true hposm⟩))

end Encoder

end GlyphHints
