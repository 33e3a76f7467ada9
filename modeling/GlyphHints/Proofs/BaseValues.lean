import GlyphHints.Proofs.Tracking
import Mathlib.Order.Bounds.Basic

/-!
# The base values of a glyph

The prolog holds the least ppem and the least point of both phases, so every hint can be
reached from it. It is made exactly if these fit their fields and the least shift has a
granularity at which it is a grain.
-/
namespace GlyphHints

/-- A hint whose coordinates are 32-bit numbers, with room for a window above its ppem. -/
structure Hint.InRange (h : Hint) : Prop where
  ppem_lt : h.ppem < 2 ^ 32 - 48
  point_lt : ∀ p ∈ h.point, p < 2 ^ 32

namespace GlyphPhases
variable {phases : GlyphPhases}

def InRange (phases : GlyphPhases) : Prop := ∀ x ∈ phases.entries, x.2.InRange

theorem mem_entries {x : Axis × Hint} :
    x ∈ phases.entries ↔ ∃ m ∈ phases.pre.toList ++ [phases.post], x ∈ m.entries := by
  rcases phases with ⟨_ | pre, post⟩ <;> simp [entries]

theorem isValid_of_mem {x : Axis × Hint} (hx : x ∈ phases.entries) : x.2.isValid = true := by
  obtain ⟨m, _, hm⟩ := mem_entries.mp hx
  exact m.valid x hm

theorem isEmpty_iff : phases.isEmpty = true ↔
    phases.post = .empty ∧ (phases.pre = none ∨ phases.pre = some .empty) := by
  rcases phases with ⟨_ | pre, post⟩
  · simp [isEmpty, PhaseMap.isEmpty_iff]
  · simp [isEmpty, PhaseMap.isEmpty_iff, and_comm]

theorem entries_eq_nil : phases.entries = [] ↔ phases.isEmpty = true := by
  rcases phases with ⟨_ | pre, post⟩ <;> simp [isEmpty, entries, PhaseMap.isEmpty]

theorem exists_mem_entries (h : phases.isEmpty = false) : ∃ x, x ∈ phases.entries := by
  refine List.exists_mem_of_ne_nil _ fun hnil => ?_
  rw [entries_eq_nil.mp hnil] at h
  contradiction

/-! ## Least values -/

section
variable {α : Type} {cmp : α → α → Ordering} {f : Axis × Hint → Option α}

theorem least?_eq_some [Std.TransCmp cmp] {a : α}
    (h : phases.least? cmp (fun m => leastBy cmp (m.entries.filterMap f)) = some a) :
    (∃ x ∈ phases.entries, f x = some a) ∧
      ∀ x ∈ phases.entries, ∀ b ∈ f x, (cmp a b).isLE = true := by
  obtain ⟨hmem, hleast⟩ := leastBy_eq_some h
  constructor
  · obtain ⟨m, hm, hvalue⟩ := List.mem_filterMap.mp hmem
    obtain ⟨x, hx, hfx⟩ := List.mem_filterMap.mp (leastBy_eq_some hvalue).1
    exact ⟨x, mem_entries.mpr ⟨m, hm, hx⟩, hfx⟩
  · intro x hx b hb
    obtain ⟨m, hm, hxm⟩ := mem_entries.mp hx
    have hbm : b ∈ m.entries.filterMap f := List.mem_filterMap.mpr ⟨x, hxm, hb⟩
    cases hvalue : leastBy cmp (m.entries.filterMap f) with
    | none =>
      rw [leastBy_eq_none.mp hvalue] at hbm
      exact absurd hbm List.not_mem_nil
    | some c =>
      have hac := hleast c (List.mem_filterMap.mpr ⟨m, hm, hvalue⟩)
      exact Std.TransCmp.isLE_trans hac ((leastBy_eq_some hvalue).2 b hbm)

theorem least?_eq_none
    (h : phases.least? cmp (fun m => leastBy cmp (m.entries.filterMap f)) = none) :
    ∀ x ∈ phases.entries, f x = none := by
  intro x hx
  obtain ⟨m, hm, hxm⟩ := mem_entries.mp hx
  have hnone := List.filterMap_eq_nil_iff.mp (leastBy_eq_none.mp h) m hm
  exact List.filterMap_eq_nil_iff.mp (leastBy_eq_none.mp hnone) x hxm

end

def leastShift (phases : GlyphPhases) : Shift :=
  (phases.least? compare PhaseMap.minShift?).getD (.pixels 0)

def leastPpem (phases : GlyphPhases) : Nat :=
  (phases.least? compare PhaseMap.minPpem?).getD Prolog.minBasePpem

def leastPoint (phases : GlyphPhases) : Nat :=
  (phases.least? compare PhaseMap.minPoint?).getD 0

theorem minShift?_eq : PhaseMap.minShift? =
    fun m => leastBy compare (m.entries.filterMap fun x => some x.2.shift) := by
  funext m
  rw [PhaseMap.minShift?, ← List.filterMap_eq_map]
  rfl

theorem minPpem?_eq : PhaseMap.minPpem? =
    fun m => leastBy compare (m.entries.filterMap fun x => some x.2.ppem) := by
  funext m
  rw [PhaseMap.minPpem?, ← List.filterMap_eq_map]
  rfl

theorem leastShift_mem (h : phases.isEmpty = false) :
    ∃ x ∈ phases.entries, x.2.shift = phases.leastShift := by
  obtain ⟨y, hy⟩ := exists_mem_entries h
  unfold leastShift
  cases hleast : phases.least? compare PhaseMap.minShift? with
  | none =>
    rw [minShift?_eq] at hleast
    exact absurd (least?_eq_none hleast y hy) (Option.some_ne_none _)
  | some s =>
    rw [minShift?_eq] at hleast
    obtain ⟨x, hx, hs⟩ := (least?_eq_some hleast).1
    exact ⟨x, hx, Option.some.inj hs⟩

theorem isLeast_leastPpem (h : phases.isEmpty = false) :
    IsLeast {p | ∃ x ∈ phases.entries, x.2.ppem = p} phases.leastPpem := by
  obtain ⟨y, hy⟩ := exists_mem_entries h
  unfold leastPpem
  cases hleast : phases.least? compare PhaseMap.minPpem? with
  | none =>
    rw [minPpem?_eq] at hleast
    exact absurd (least?_eq_none hleast y hy) (Option.some_ne_none _)
  | some p =>
    rw [minPpem?_eq] at hleast
    obtain ⟨⟨x, hx, hp⟩, hle⟩ := least?_eq_some hleast
    constructor
    · exact ⟨x, hx, Option.some.inj hp⟩
    · rintro q ⟨z, hz, rfl⟩
      exact Nat.isLE_compare.mp (hle z hz _ rfl)

theorem leastPoint_eq (phases : GlyphPhases) :
    IsLeast {p | ∃ x ∈ phases.entries, x.2.point = some p} phases.leastPoint ∨
      phases.leastPoint = 0 ∧ ∀ x ∈ phases.entries, x.2.point = none := by
  unfold leastPoint
  cases hleast : phases.least? compare PhaseMap.minPoint? with
  | none => exact Or.inr ⟨rfl, least?_eq_none hleast⟩
  | some p =>
    obtain ⟨⟨x, hx, hp⟩, hle⟩ := least?_eq_some hleast
    refine Or.inl ⟨⟨x, hx, hp⟩, ?_⟩
    rintro q ⟨z, hz, hq⟩
    exact Nat.isLE_compare.mp (hle z hz q hq)

/-! ## The prolog -/

theorem prolog_eq_ok {p : { p : Prolog // p.Fits }} (h : phases.prolog = .ok p) :
    p.1.basePpem = phases.leastPpem ∧ p.1.basePoint = phases.leastPoint := by
  unfold prolog at h
  dsimp only at h
  split at h
  · contradiction
  · split_ifs at h
    cases h
    exact ⟨rfl, rfl⟩

theorem prolog_eq_error {e : Error} (h : phases.prolog = .error e) :
    phases.leastShift.coarsest = .error e ∨
    (∃ d, phases.leastShift.coarsest = .ok d ∧
      (Grain.ofSteps (phases.leastShift.steps d) < 0 ∨
        15 < Grain.ofSteps (phases.leastShift.steps d)) ∧
      e = .prologOverflow .baseShift phases.leastShift) ∨
    (phases.leastPpem < Prolog.minBasePpem ∧ e = .basePpemTooLow phases.leastPpem) ∨
    (255 < phases.leastPpem ∧ e = .prologOverflow .basePpem (.pixels phases.leastPpem)) ∨
    (255 < phases.leastPoint ∧ e = .prologOverflow .basePoint (.pixels phases.leastPoint)) := by
  unfold prolog at h
  dsimp only at h
  split at h
  · rename_i hg
    cases h
    exact Or.inl hg
  · rename_i d hg
    apply Or.inr
    split_ifs at h with hs hl hp hq
    · cases h
      exact Or.inl ⟨d, hg, hs, rfl⟩
    · cases h
      exact Or.inr (Or.inl ⟨hl, rfl⟩)
    · cases h
      exact Or.inr (Or.inr (Or.inl ⟨hp, rfl⟩))
    · cases h
      exact Or.inr (Or.inr (Or.inr ⟨hq, rfl⟩))

/-- The base values of a glyph underlie it. -/
theorem underlies_of_prolog {p : Prolog} {fits : p.Fits} (hrange : phases.InRange)
    (hne : phases.isEmpty = false) (h : phases.prolog = .ok ⟨p, fits⟩) :
    p.base.Underlies phases := by
  obtain ⟨hppem, hpoint⟩ := prolog_eq_ok h
  refine ⟨fits.le_basePpem, ?_⟩
  intro x hx
  have hword := hrange x hx
  constructor
  · exact isValid_of_mem hx
  · have hlt := hword.ppem_lt
    simp only [deltaBaseSpan, greatestWord]
    omega
  · intro q hq
    have hlt := hword.point_lt q hq
    simp only [greatestWord]
    omega
  · change p.basePpem ≤ x.2.ppem
    rw [hppem]
    exact (isLeast_leastPpem hne).2 ⟨x, hx, rfl⟩
  · intro q hq
    change p.basePoint ≤ q
    rw [hpoint]
    rcases phases.leastPoint_eq with hleast | ⟨hzero, _⟩
    · exact hleast.2 ⟨x, hx, hq⟩
    · omega

end GlyphPhases

end GlyphHints
