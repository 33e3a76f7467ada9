import GlyphHints.Proofs.Levels
import GlyphHints.Proofs.PhaseMap
import GlyphHints.Proofs.Tally

/-!
# Hints on their levels

Putting a hint on its levels adds that hint and no other, and leaves no level empty. Levels of
which none is empty are known by the hints on them; in order, these are the entries of a phase map.
The least keys of the levels are the least values among all hints.
-/
namespace GlyphHints

namespace PhaseLevels
open Table

variable {m n : PhaseLevels} {axis : Axis} {h : Hint} {e : Axis × Hint}
  {calls : List (Axis × Hint)}

/-! ## What lies on the levels -/

/-- A target is in a set. -/
def Marks (targets : TargetSet) (t : Target) : Prop := targets.get? t = some ()

/-- A hint is on the levels. -/
def Holds (m : PhaseLevels) (e : Axis × Hint) : Prop :=
  Under (Under (Under Marks)) m.axes (e.1, e.2.ppem, e.2.shift, e.2.target)

theorem contains_iff : m.contains axis h = true ↔ m.Holds (axis, h) := by
  simp only [contains, Option.isSome_iff_exists, Option.bind_eq_some_iff, Holds, Under, Marks]
  constructor
  · rintro ⟨_, targets, ⟨shifts, ⟨ppems, hppems, hshifts⟩, htargets⟩, htarget⟩
    exact ⟨ppems, hppems, shifts, hshifts, targets, htargets, htarget⟩
  · rintro ⟨ppems, hppems, shifts, hshifts, targets, htargets, htarget⟩
    exact ⟨(), targets, ⟨shifts, ⟨ppems, hppems, hshifts⟩, htargets⟩, htarget⟩

theorem holds_place : (m.place axis h).Holds e ↔ e = (axis, h) ∨ m.Holds e := by
  have hmark : ∀ (targets : TargetSet) t,
      Marks (targets.update h.target () id) t ↔ t = h.target ∨ Marks targets t := by
    intro targets t
    unfold Marks
    rw [get?_update]
    by_cases ht : t = h.target <;> simp [ht]
  have hnone : ∀ {κ β γ : Type} [Ord κ] {lies : β → γ → Prop} (x : κ × γ),
      ¬ Under lies (.empty : Table κ β) x := by
    rintro _ _ _ _ _ _ ⟨v, hv, -⟩
    cases hv
  have hempty : ∀ t, ¬ Marks .empty t := fun t ht => by cases ht
  -- From the targets outwards, each level takes in what the one in it does.
  have hplace := under_update (t := m.axes) (k := axis) hnone fun ppems =>
    under_update (t := ppems) (k := h.ppem) hnone fun shifts =>
      under_update (t := shifts) (k := h.shift) hempty hmark
  refine (hplace (e.1, e.2.ppem, e.2.shift, e.2.target)).trans (or_congr ?_ Iff.rfl)
  obtain ⟨b, ⟨ppem, shift, point, kind⟩⟩ := e
  obtain ⟨ppem', shift', point', kind'⟩ := h
  simp only [Hint.target, Prod.mk.injEq, Hint.mk.injEq, Target.mk.injEq]
  tauto

/-! ## No level is empty -/

/-- Each axis has ppems, each of these has shifts, and each of these has targets. -/
def NoneEmpty (m : PhaseLevels) : Prop :=
  ∀ a ∈ m.axes.entries, Filled (Filled fun targets => targets.entries ≠ []) a.2

theorem noneEmpty_empty : empty.NoneEmpty := fun _ ha => absurd ha List.not_mem_nil

/-- With a hint come all of its levels. -/
theorem NoneEmpty.place (hm : m.NoneEmpty) (axis : Axis) (h : Hint) :
    (m.place axis h).NoneEmpty := by
  have htargets : ∀ targets : TargetSet, (targets.update h.target () id).entries ≠ [] :=
    fun targets => (filled_update (P := fun _ => True) (fun _ _ => trivial) trivial
      fun _ _ => trivial).nonempty
  have hshifts : ∀ shifts : ShiftLevels, (∀ s ∈ shifts.entries, s.2.entries ≠ []) →
      Filled (fun targets => targets.entries ≠ []) (shifts.update h.shift .empty
        fun targets => targets.update h.target () id) :=
    fun _ hs => filled_update hs (htargets _) fun targets _ => htargets targets
  have hppems : ∀ ppems : PpemLevels,
      (∀ p ∈ ppems.entries, Filled (fun targets => targets.entries ≠ []) p.2) → _ :=
    fun _ hp => filled_update (k := h.ppem) hp
      (hshifts .empty fun _ hs => absurd hs List.not_mem_nil) fun shifts hs =>
        hshifts shifts hs.values
  exact (filled_update hm (hppems .empty fun _ hp => absurd hp List.not_mem_nil) fun ppems hp =>
    hppems ppems hp.values).values

theorem determined_targets :
    Determined Marks fun targets : TargetSet => targets.entries ≠ [] where
  exists_lies targets ht := by
    obtain ⟨t, ht⟩ := List.exists_mem_of_ne_nil _ ht
    exact ⟨t.1, mem_entries_iff.mp ht⟩
  ext _ _ _ _ hsame := ext_get? fun t => Option.ext fun _ => hsame t

/-- Levels of which none is empty are known by the hints on them. -/
theorem eq_of_holds (hm : m.NoneEmpty) (hn : n.NoneEmpty) (hsame : ∀ e, m.Holds e ↔ n.Holds e) :
    m = n := by
  have haxes : m.axes = n.axes :=
    eq_of_under determined_targets.table.table hm hn fun ⟨axis, ppem, shift, kind, point⟩ =>
      hsame (axis, ⟨ppem, shift, point, kind⟩)
  cases m
  cases n
  exact congrArg PhaseLevels.mk haxes

/-! ## The hints in order -/

/-- All hints, axis by axis. -/
def hints (m : PhaseLevels) : List (Axis × Hint) :=
  m.axes.entries.flatMap fun a => (hintsOf a.2).map (a.1, ·)

theorem mem_hintsOf {ppems : PpemLevels} :
    h ∈ hintsOf ppems ↔ Under (Under Marks) ppems (h.ppem, h.shift, h.target) := by
  simp only [hintsOf, List.mem_flatMap, List.mem_map, mem_entries_iff, Under, Marks]
  constructor
  · rintro ⟨p, hp, s, hs, t, ht, rfl⟩
    exact ⟨p.2, hp, s.2, hs, ht⟩
  · rintro ⟨shifts, hp, targets, hs, ht⟩
    exact ⟨(h.ppem, shifts), hp, (h.shift, targets), hs, (h.target, ()), ht, rfl⟩

theorem mem_hints : e ∈ m.hints ↔ m.Holds e := by
  simp only [hints, List.mem_flatMap, List.mem_map, mem_entries_iff, mem_hintsOf, Holds]
  constructor
  · rintro ⟨a, ha, h, hh, rfl⟩
    exact ⟨a.2, ha, hh⟩
  · rintro ⟨ppems, ha, hh⟩
    exact ⟨(e.1, ppems), ha, e.2, hh, rfl⟩

theorem pairwise_entries {κ β : Type} [Ord κ] (t : Table κ β) :
    t.entries.Pairwise fun a b => compare a.1 b.1 = .lt := List.pairwise_map.mp t.ascending

theorem ascending_hintsOf (axis : Axis) (ppems : PpemLevels) :
    Ascending entryOrder ((hintsOf ppems).map (axis, ·)) := by
  -- Two hints are compared at the level where they part.
  refine List.pairwise_map.mpr (List.pairwise_flatMap.mpr ⟨fun p _ => ?_, ?_⟩)
  · refine List.pairwise_flatMap.mpr ⟨fun s _ => List.pairwise_map.mpr ?_, ?_⟩
    · refine (pairwise_entries s.2).imp fun {t u} htu => ?_
      have htu : (compare t.1.kind.index u.1.kind.index).then
          (compare t.1.point u.1.point) = .lt := htu
      simpa [entryOrder, compareLex, compareOn, Std.ReflCmp.compare_self] using htu
    · refine (pairwise_entries p.2).imp fun {s t} hst => ?_
      simp only [List.forall_mem_map]
      intros
      simp [entryOrder, compareLex, compareOn, Std.ReflCmp.compare_self, hst]
  · refine (pairwise_entries ppems).imp fun {p q} hpq => ?_
    simp only [List.mem_flatMap, List.mem_map]
    rintro _ ⟨s, -, t, -, rfl⟩ _ ⟨s', -, t', -, rfl⟩
    simp [entryOrder, compareLex, compareOn, Std.ReflCmp.compare_self, hpq]

theorem ascending_hints (m : PhaseLevels) : Ascending entryOrder m.hints := by
  refine List.pairwise_flatMap.mpr ⟨fun a _ => ascending_hintsOf a.1 a.2, ?_⟩
  refine (pairwise_entries m.axes).imp fun {a b} hab => ?_
  have hindex : compare a.1.index b.1.index = .lt := hab
  simp only [List.forall_mem_map]
  intros
  simp [entryOrder, compareLex, compareOn, hindex]

theorem size_eq (m : PhaseLevels) : m.size = m.hints.length := by
  rw [size, foldl_add_sum, Nat.zero_add]
  simp [shiftLevels, hints, hintsOf, List.flatMap_def, List.sum_flatten, List.map_flatten,
    Function.comp_def]

theorem nodup_hints (m : PhaseLevels) : m.hints.Nodup := m.ascending_hints.nodup

/-! ## Least values -/

/-- Each ppem of an axis has a hint. -/
theorem mem_ppems (hm : m.NoneEmpty) (p : Nat) :
    p ∈ (m.axes.entries.map (·.2)).flatMap (fun t => t.entries.map (·.1)) ↔
      p ∈ m.hints.map (·.2.ppem) := by
  simp only [hints, hintsOf, List.mem_map, List.mem_flatMap]
  constructor
  · rintro ⟨_, ⟨a, ha, rfl⟩, e, he, rfl⟩
    obtain ⟨s, hs⟩ := List.exists_mem_of_ne_nil _ ((hm a ha).values e he).nonempty
    obtain ⟨t, ht⟩ := List.exists_mem_of_ne_nil _ (((hm a ha).values e he).values s hs)
    exact ⟨_, ⟨a, ha, _, ⟨e, he, s, hs, t, ht, rfl⟩, rfl⟩, rfl⟩
  · rintro ⟨_, ⟨a, ha, _, ⟨e, he, s, hs, t, ht, rfl⟩, rfl⟩, rfl⟩
    exact ⟨_, ⟨a, ha, rfl⟩, e, he, rfl⟩

/-- Each shift of a ppem has a hint. -/
theorem mem_shifts (hm : m.NoneEmpty) (s : Shift) :
    s ∈ m.shiftLevels.flatMap (fun t => t.entries.map (·.1)) ↔
      s ∈ m.hints.map (·.2.shift) := by
  simp only [shiftLevels, hints, hintsOf, List.mem_map, List.mem_flatMap]
  constructor
  · rintro ⟨_, ⟨a, ha, e, he, rfl⟩, s, hs, rfl⟩
    obtain ⟨t, ht⟩ := List.exists_mem_of_ne_nil _ (((hm a ha).values e he).values s hs)
    exact ⟨_, ⟨a, ha, _, ⟨e, he, s, hs, t, ht, rfl⟩, rfl⟩, rfl⟩
  · rintro ⟨_, ⟨a, ha, _, ⟨e, he, s, hs, t, ht, rfl⟩, rfl⟩, rfl⟩
    exact ⟨_, ⟨a, ha, e, he, rfl⟩, s, hs, rfl⟩

theorem mem_points (m : PhaseLevels) (q : Nat) :
    q ∈ (m.shiftLevels.flatMap fun shifts => shifts.entries.flatMap fun s =>
      s.2.entries.filterMap (·.1.point)) ↔ q ∈ m.hints.filterMap (·.2.point) := by
  simp only [shiftLevels, hints, hintsOf, List.mem_map, List.mem_flatMap, List.mem_filterMap]
  constructor
  · rintro ⟨_, ⟨a, ha, e, he, rfl⟩, s, hs, t, ht, hq⟩
    exact ⟨_, ⟨a, ha, _, ⟨e, he, s, hs, t, ht, rfl⟩, rfl⟩, hq⟩
  · rintro ⟨_, ⟨a, ha, _, ⟨e, he, s, hs, t, ht, rfl⟩, rfl⟩, hq⟩
    exact ⟨_, ⟨a, ha, e, he, rfl⟩, s, hs, t, ht, hq⟩

theorem isLeastOf_minPpem? (hm : m.NoneEmpty) : IsLeastOf (m.hints.map (·.2.ppem)) m.minPpem? :=
  (isLeastOf_firstKeys _).congr (mem_ppems hm)

theorem isLeastOf_minShift? (hm : m.NoneEmpty) :
    IsLeastOf (m.hints.map (·.2.shift)) m.minShift? :=
  (isLeastOf_firstKeys _).congr (mem_shifts hm)

theorem isLeastOf_minPoint? (m : PhaseLevels) :
    IsLeastOf (m.hints.filterMap (·.2.point)) m.minPoint? :=
  (isLeastOf_leastBy _).congr m.mem_points

/-! ## One axis -/

theorem mem_flatten {ppems : PpemLevels} (hget : m.axes.get? axis = some ppems) :
    h ∈ flatten ppems ↔ (axis, h) ∈ m.hints := by
  rw [flatten, (sortBy_perm _).mem_iff, mem_hintsOf, mem_hints]
  constructor
  · exact fun hunder => ⟨ppems, hget, hunder⟩
  · rintro ⟨found, hfound, hunder⟩
    rwa [Option.some.inj (hget.symm.trans hfound)]

theorem ascending_flatten (ppems : PpemLevels) : Ascending compare (flatten ppems) := by
  have hnodup : (flatten ppems).Nodup :=
    (sortBy_perm _).nodup_iff.mpr ((ascending_hintsOf .x ppems).nodup.of_map _)
  exact .of_isLE (sortBy_pairwise _) hnodup

theorem get?_eq_none_iff (hm : m.NoneEmpty) :
    m.axes.get? axis = none ↔ ∀ h, (axis, h) ∉ m.hints := by
  constructor
  · intro hnone h hh
    obtain ⟨ppems, hget, -⟩ := mem_hints.mp hh
    cases hnone.symm.trans hget
  · intro hnone
    cases hget : m.axes.get? axis with
    | none => rfl
    | some ppems =>
      have hfilled := hm (axis, ppems) (mem_entries_iff.mpr hget)
      obtain ⟨x, hx⟩ := determined_targets.table.table.exists_lies ppems hfilled
      exact absurd (mem_hints.mpr ⟨ppems, hget, hx⟩)
        (hnone ⟨x.1, x.2.1, x.2.2.point, x.2.2.kind⟩)

end PhaseLevels

end GlyphHints
