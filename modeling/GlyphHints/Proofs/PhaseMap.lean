import GlyphHints.Proofs.Ascending
import GlyphHints.Proofs.Failing

/-!
# Phase maps as sets

A phase map is known by the hints it holds. Inserting adds one hint, and the flattened axes
of a map together hold each of its hints once.
-/
namespace GlyphHints

theorem Hint.check_of_isValid {h : Hint} (hv : h.isValid = true) : h.check = .ok () := by
  unfold isValid at hv
  simp_all [check]

namespace PhaseMap

theorem eq_of_mem_iff {m n : PhaseMap} (h : ∀ e, e ∈ m.entries ↔ e ∈ n.entries) : m = n :=
  PhaseMap.ext (Ascending.eq_of_mem_iff m.ascending n.ascending h)

theorem nodup (m : PhaseMap) : m.entries.Nodup := m.ascending.nodup

theorem mem_add {m : PhaseMap} {axis : Axis} {h : Hint} {hv : h.isValid = true}
    {e : Axis × Hint} : e ∈ (m.add axis h hv).entries ↔ e = (axis, h) ∨ e ∈ m.entries :=
  Ascending.mem_insert

theorem insert_of_isValid (m : PhaseMap) (axis : Axis) {h : Hint} (hv : h.isValid = true) :
    m.insert axis h = .ok (m.add axis h hv) := by
  unfold insert
  split
  · rename_i e he
    rw [Hint.check_of_isValid hv] at he
    contradiction
  · rfl

theorem mem_of_insert {m n : PhaseMap} {axis : Axis} {h : Hint} (hn : m.insert axis h = .ok n)
    {e : Axis × Hint} : e ∈ n.entries ↔ e = (axis, h) ∨ e ∈ m.entries := by
  unfold insert at hn
  split at hn
  · contradiction
  · exact Except.ok.inj hn ▸ mem_add

theorem mem_of_insertAll {m n : PhaseMap} {entries : List (Axis × Hint)}
    (hn : m.insertAll entries = .ok n) {e : Axis × Hint} :
    e ∈ n.entries ↔ e ∈ entries ∨ e ∈ m.entries := by
  induction entries generalizing m with
  | nil =>
    cases hn
    simp
  | cons x entries ih =>
    obtain ⟨k, hk, hn⟩ := bind_eq_ok.mp hn
    rw [ih hn, mem_of_insert hk, List.mem_cons]
    tauto

theorem isEmpty_iff {m : PhaseMap} : m.isEmpty = true ↔ m = .empty := by
  constructor
  · intro h
    exact PhaseMap.ext (List.isEmpty_iff.mp h)
  · rintro rfl
    rfl

/-- The hints of one axis, as they are recorded. -/
def entriesOn (m : PhaseMap) (axis : Axis) : List (Axis × Hint) :=
  m.entries.filter fun e => e.1 = axis

theorem mem_entriesOn {m : PhaseMap} {axis : Axis} {e : Axis × Hint} :
    e ∈ m.entriesOn axis ↔ e ∈ m.entries ∧ e.1 = axis := by
  simp [entriesOn]

theorem map_snd_entriesOn (m : PhaseMap) (axis : Axis) :
    ((m.entriesOn axis).map (·.2)).map (axis, ·) = m.entriesOn axis := by
  rw [List.map_map]
  refine (List.map_congr_left fun e he => ?_).trans (List.map_id _)
  exact Prod.ext (mem_entriesOn.mp he).2.symm rfl

theorem nodup_map_snd_entriesOn (m : PhaseMap) (axis : Axis) :
    ((m.entriesOn axis).map (·.2)).Nodup := by
  have h : (m.entriesOn axis).Nodup := m.nodup.filter _
  rw [← map_snd_entriesOn] at h
  exact h.of_map _

theorem flatten_perm (m : PhaseMap) (axis : Axis) :
    (m.flatten axis).Perm ((m.entriesOn axis).map (·.2)) :=
  Ascending.ofList_perm (m.nodup_map_snd_entriesOn axis)

theorem nodup_axes (m : PhaseMap) : m.axes.Nodup := List.Nodup.filter _ (by decide)

theorem mem_axes {m : PhaseMap} {axis : Axis} :
    axis ∈ m.axes ↔ ∃ e ∈ m.entries, e.1 = axis := by
  cases axis <;> simp [axes]

theorem flatMap_entriesOn_perm (m : PhaseMap) : (m.axes.flatMap m.entriesOn).Perm m.entries := by
  refine (List.perm_ext_iff_of_nodup ?_ m.nodup).mpr fun e => ?_
  · refine List.nodup_flatMap.mpr ⟨fun axis _ => m.nodup.filter _, ?_⟩
    refine m.nodup_axes.imp fun {a b} hab e ha hb => hab ?_
    exact (mem_entriesOn.mp ha).2.symm.trans (mem_entriesOn.mp hb).2
  · simp only [List.mem_flatMap, mem_entriesOn, mem_axes]
    constructor
    · rintro ⟨_, _, he, _⟩
      exact he
    · exact fun he => ⟨e.1, ⟨e, he, rfl⟩, he, rfl⟩

end PhaseMap

end GlyphHints
