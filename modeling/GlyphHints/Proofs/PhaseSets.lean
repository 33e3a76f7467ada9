import GlyphHints.Encoder
import GlyphHints.Proofs.PhaseLevels
import Mathlib.Data.List.Dedup
import Mathlib.Data.List.Induction

/-!
# Recording hints in any order

Of the hints that are to be recorded one after the other, those that may be are, each of them once,
and the rest leave no trace. So what comes of it is a set, whatever the order, and the levels and
the phase map of that set say the same.
-/
namespace GlyphHints

namespace Hint
variable {h : Hint}

theorem exists_check_eq_error_iff : (∃ e, h.check = .error e) ↔ h.isValid = false := by
  unfold check isValid
  cases h.shift.isUsable <;> cases h.kind.fits h.point <;> simp

/-- A hint needs a shift that is finite and not zero, and a point unless it is global. -/
theorem isValid_eq_false_iff : h.isValid = false ↔
    (h.shift.toRat? = none ∨ h.shift.toRat? = some 0) ∨
      (h.point.isSome = true ↔ h.kind = .deltaG) := by
  have hshift : h.shift.isUsable = false ↔
      h.shift.toRat? = none ∨ h.shift.toRat? = some 0 := by
    cases h.shift <;> simp [Shift.isUsable, Shift.toRat?]
  have hpoint : h.kind.fits h.point = false ↔ (h.point.isSome = true ↔ h.kind = .deltaG) := by
    unfold DeltaKind.fits
    cases h.kind <;> cases h.point.isSome <;> decide
  rw [isValid, Bool.and_eq_false_iff, hshift, hpoint]

end Hint

namespace PhaseLevels

variable {m : PhaseLevels} {axis : Axis} {h : Hint} {e : Axis × Hint}
  {calls : List (Axis × Hint)}

/-! ## Calls -/

/-- Those hints of a list that may be recorded. -/
def accepted (calls : List (Axis × Hint)) : List (Axis × Hint) :=
  calls.filter fun e => e.2.isValid

theorem mem_accepted_concat {x : Axis × Hint} : e ∈ accepted (calls ++ [x]) ↔
    (e = x ∧ x.2.isValid = true) ∨ e ∈ accepted calls := by
  simp only [accepted, List.mem_filter, List.mem_append, List.mem_singleton]
  grind

theorem insert_of_isValid (m : PhaseLevels) (axis : Axis) (hv : h.isValid = true) :
    m.insert axis h = (.ok (!m.contains axis h), m.place axis h) := by
  simp [insert, Hint.check_of_isValid hv]

/-- A refusal leaves every level as it is. -/
theorem exists_insert_eq (m : PhaseLevels) (axis : Axis) (hv : h.isValid = false) :
    ∃ cause, m.insert axis h = (.error cause, m) := by
  obtain ⟨cause, hcause⟩ := Hint.exists_check_eq_error_iff.mpr hv
  exact ⟨cause, by simp [insert, hcause]⟩

theorem exists_insert_eq_error_iff :
    (∃ cause, (m.insert axis h).1 = .error cause) ↔ h.isValid = false := by
  cases hv : h.isValid with
  | true => simp [insert_of_isValid m axis hv]
  | false =>
    obtain ⟨cause, hcause⟩ := exists_insert_eq m axis hv
    simp [hcause]

theorem isNew_of_insert {isNew : Bool} (hok : (m.insert axis h).1 = .ok isNew) :
    isNew = !m.contains axis h := by
  cases hv : h.isValid with
  | true =>
    rw [insert_of_isValid m axis hv] at hok
    exact (Except.ok.inj hok).symm
  | false =>
    obtain ⟨cause, hcause⟩ := exists_insert_eq m axis hv
    rw [hcause] at hok
    contradiction

theorem NoneEmpty.insert (hm : m.NoneEmpty) (axis : Axis) (h : Hint) :
    (m.insert axis h).2.NoneEmpty := by
  cases hv : h.isValid with
  | true =>
    rw [insert_of_isValid m axis hv]
    exact hm.place axis h
  | false =>
    obtain ⟨cause, hcause⟩ := exists_insert_eq m axis hv
    rwa [hcause]

theorem holds_insert : (m.insert axis h).2.Holds e ↔
    (e = (axis, h) ∧ h.isValid = true) ∨ m.Holds e := by
  cases hv : h.isValid with
  | true =>
    rw [insert_of_isValid m axis hv]
    simp [holds_place]
  | false =>
    obtain ⟨cause, hcause⟩ := exists_insert_eq m axis hv
    simp [hcause]

theorem ofCalls_concat (calls : List (Axis × Hint)) (e : Axis × Hint) :
    ofCalls (calls ++ [e]) = ((ofCalls calls).insert e.1 e.2).2 := by
  simp [ofCalls]

theorem noneEmpty_ofCalls (calls : List (Axis × Hint)) : (ofCalls calls).NoneEmpty := by
  induction calls using List.reverseRecOn with
  | nil => exact noneEmpty_empty
  | append_singleton calls e ih =>
    rw [ofCalls_concat]
    exact ih.insert e.1 e.2

theorem mem_hints_ofCalls : e ∈ (ofCalls calls).hints ↔ e ∈ accepted calls := by
  induction calls using List.reverseRecOn with
  | nil => simp [ofCalls, empty, hints, accepted, Table.empty]
  | append_singleton calls x ih =>
    rw [ofCalls_concat, mem_hints, holds_insert, ← mem_hints, ih, mem_accepted_concat]

end PhaseLevels

namespace PhaseMap
variable {m : PhaseMap} {axis : Axis} {h : Hint} {e : Axis × Hint} {calls : List (Axis × Hint)}

theorem record_of_isValid (m : PhaseMap) (axis : Axis) (hv : h.isValid = true) :
    m.record axis h = (.ok (!m.contains axis h), m.add axis h hv) := by
  simp [record, m.insert_of_isValid axis hv]

theorem insert_of_check {cause : Error} (m : PhaseMap) (axis : Axis)
    (hcause : h.check = .error cause) : m.insert axis h = .error cause := by
  unfold insert
  split
  · rename_i e he
    rw [Except.error.inj (he.symm.trans hcause)]
  · rename_i hok
    cases hok.symm.trans hcause

theorem mem_ofCalls : e ∈ (ofCalls calls).entries ↔ e ∈ PhaseLevels.accepted calls := by
  induction calls using List.reverseRecOn with
  | nil => simp [ofCalls, empty, PhaseLevels.accepted]
  | append_singleton calls x ih =>
    have hlast : ofCalls (calls ++ [x]) = ((ofCalls calls).record x.1 x.2).2 := by simp [ofCalls]
    rw [hlast, PhaseLevels.mem_accepted_concat, ← ih]
    cases hv : x.2.isValid with
    | true =>
      rw [record_of_isValid _ _ hv, mem_add]
      simp
    | false =>
      obtain ⟨cause, hcause⟩ := Hint.exists_check_eq_error_iff.mpr hv
      simp [record, insert_of_check _ _ hcause]

end PhaseMap

namespace PhaseLevels
open Table

variable {m : PhaseLevels} {n : PhaseMap}

/-- A phase map that holds the hints of levels says the same of them, and takes or refuses the same
hints. -/
structure Agrees (m : PhaseLevels) (n : PhaseMap) : Prop where
  entries : n.entries = m.hints
  isEmpty : n.isEmpty = m.isEmpty
  size : n.size = m.size
  minPpem : n.minPpem? = m.minPpem?
  minShift : n.minShift? = m.minShift?
  minPoint : n.minPoint? = m.minPoint?
  flatten : ∀ axis, n.flatten axis = ((m.axes.get? axis).map flatten).getD []
  record : ∀ axis h, (n.record axis h).1 = (m.insert axis h).1

theorem isEmpty_iff (hm : m.NoneEmpty) : m.isEmpty = true ↔ m.hints = [] := by
  rw [isEmpty, List.isEmpty_iff]
  constructor
  · intro hnil
    simp [hints, hnil]
  · intro hnil
    refine List.eq_nil_iff_forall_not_mem.mpr fun a ha => ?_
    have hsome := mem_entries_iff.mp ha
    have hnone : m.axes.get? a.1 = none :=
      (get?_eq_none_iff hm).mpr fun h => hnil ▸ List.not_mem_nil
    cases hnone.symm.trans hsome

theorem agrees_of_entries (hm : m.NoneEmpty) (hentries : n.entries = m.hints) : m.Agrees n where
  entries := hentries
  isEmpty := by
    rw [Bool.eq_iff_iff, isEmpty_iff hm, PhaseMap.isEmpty, List.isEmpty_iff, hentries]
  size := by rw [PhaseMap.size, hentries, size_eq]
  minPpem := by
    rw [PhaseMap.minPpem?, hentries]
    exact (isLeastOf_leastBy _).unique (isLeastOf_minPpem? hm)
  minShift := by
    rw [PhaseMap.minShift?, hentries]
    exact (isLeastOf_leastBy _).unique (isLeastOf_minShift? hm)
  minPoint := by
    rw [PhaseMap.minPoint?, hentries]
    exact (isLeastOf_leastBy _).unique m.isLeastOf_minPoint?
  flatten axis := by
    have hmem : ∀ h, h ∈ n.flatten axis ↔ (axis, h) ∈ m.hints := by
      intro h
      simp only [PhaseMap.flatten, Ascending.mem_ofList, List.mem_map, List.mem_filter, hentries,
        decide_eq_true_eq]
      constructor
      · rintro ⟨e, ⟨he, rfl⟩, rfl⟩
        exact he
      · exact fun hh => ⟨(axis, h), ⟨hh, rfl⟩, rfl⟩
    cases hget : m.axes.get? axis with
    | none =>
      have hnone := (get?_eq_none_iff hm).mp hget
      exact List.eq_nil_iff_forall_not_mem.mpr fun h hh => hnone h ((hmem h).mp hh)
    | some ppems =>
      refine Ascending.eq_of_mem_iff (Ascending.ascending_ofList _) (ascending_flatten ppems) ?_
      exact fun h => (hmem h).trans (mem_flatten hget).symm
  record axis h := by
    cases hv : h.isValid with
    | true =>
      have hcontains : n.contains axis h = m.contains axis h := by
        rw [Bool.eq_iff_iff, contains_iff, ← mem_hints, PhaseMap.contains, decide_eq_true_eq,
          hentries]
      rw [n.record_of_isValid axis hv, insert_of_isValid m axis hv, hcontains]
    | false =>
      obtain ⟨cause, hcause⟩ := Hint.exists_check_eq_error_iff.mpr hv
      simp [PhaseMap.record, n.insert_of_check axis hcause, insert, hcause]

theorem agrees_ofCalls (calls : List (Axis × Hint)) :
    (ofCalls calls).Agrees (PhaseMap.ofCalls calls) := by
  refine agrees_of_entries (noneEmpty_ofCalls calls) ?_
  refine Ascending.eq_of_mem_iff (PhaseMap.ofCalls calls).ascending (ascending_hints _) ?_
  exact fun e => PhaseMap.mem_ofCalls.trans mem_hints_ofCalls.symm

/-- Recording a hint fails exactly if its shift is zero or not finite or its point does not go with
its kind, and then changes nothing; otherwise it tells whether the hint is new. After any number of
calls no level is empty, the levels hold each hint of a call that succeeded once, and their least
values are the least of these hints. An axis is flattened to its hints in strictly ascending order.
Calls that record the same hints lead to the same levels and the same phase map, which is therefore
encoded in the same way. -/
theorem ofCalls_canonical (calls : List (Axis × Hint)) :
    (∀ axis h,
      ((∃ cause, ((ofCalls calls).insert axis h).1 = .error cause) ↔
        (h.shift.toRat? = none ∨ h.shift.toRat? = some 0) ∨
          (h.point.isSome = true ↔ h.kind = .deltaG)) ∧
      ((∃ cause, ((ofCalls calls).insert axis h).1 = .error cause) ↔ h.isValid = false) ∧
      (∀ cause, ((ofCalls calls).insert axis h).1 = .error cause →
        ((ofCalls calls).insert axis h).2 = ofCalls calls) ∧
      ∀ isNew, ((ofCalls calls).insert axis h).1 = .ok isNew →
        (isNew = true ↔ (axis, h) ∉ accepted calls)) ∧
    (ofCalls calls).NoneEmpty ∧
    ((ofCalls calls).isEmpty = true ↔ accepted calls = []) ∧
    (ofCalls calls).size = (accepted calls).dedup.length ∧
    IsLeastOf ((accepted calls).map (·.2.ppem)) (ofCalls calls).minPpem? ∧
    IsLeastOf ((accepted calls).map (·.2.shift)) (ofCalls calls).minShift? ∧
    IsLeastOf ((accepted calls).filterMap (·.2.point)) (ofCalls calls).minPoint? ∧
    (∀ axis, ((ofCalls calls).axes.get? axis = none ↔ ∀ h, (axis, h) ∉ accepted calls) ∧
      ∀ ppems, (ofCalls calls).axes.get? axis = some ppems →
        (flatten ppems).Pairwise (fun a b => compare a b = .lt) ∧
          ∀ h, h ∈ flatten ppems ↔ (axis, h) ∈ accepted calls) ∧
    (ofCalls calls).Agrees (PhaseMap.ofCalls calls) ∧
    ∀ others, (∀ e, e ∈ accepted others ↔ e ∈ accepted calls) →
      ofCalls others = ofCalls calls ∧ PhaseMap.ofCalls others = PhaseMap.ofCalls calls ∧
      ∀ verify,
        (∀ pre, GlyphPhases.encode ⟨pre, .ofCalls others⟩ verify =
          GlyphPhases.encode ⟨pre, .ofCalls calls⟩ verify) ∧
        ∀ post, GlyphPhases.encode ⟨some (.ofCalls others), post⟩ verify =
          GlyphPhases.encode ⟨some (.ofCalls calls), post⟩ verify := by
  have hfull := noneEmpty_ofCalls calls
  have hmem : ∀ e, e ∈ (ofCalls calls).hints ↔ e ∈ accepted calls := fun e => mem_hints_ofCalls
  refine ⟨fun axis h => ?_, hfull, ?_, ?_, ?_, ?_, ?_, fun axis => ⟨?_, fun ppems hget => ?_⟩,
    agrees_ofCalls calls, fun others hsame => ?_⟩
  · have hrefused : (∃ cause, ((ofCalls calls).insert axis h).1 = .error cause) ↔
        h.isValid = false := exists_insert_eq_error_iff
    refine ⟨hrefused.trans Hint.isValid_eq_false_iff, hrefused, fun cause hcause => ?_, ?_⟩
    · obtain ⟨_, heq⟩ := exists_insert_eq (ofCalls calls) axis (hrefused.mp ⟨cause, hcause⟩)
      rw [heq]
    · intro isNew hok
      rw [← hmem, mem_hints, ← contains_iff, isNew_of_insert hok]
      simp
  · rw [isEmpty_iff hfull, List.eq_nil_iff_forall_not_mem, List.eq_nil_iff_forall_not_mem]
    simp only [hmem]
  · rw [size_eq]
    refine ((List.perm_ext_iff_of_nodup (nodup_hints _) (List.nodup_dedup _)).mpr ?_).length_eq
    exact fun e => (hmem e).trans List.mem_dedup.symm
  · exact (isLeastOf_minPpem? hfull).congr fun _ => by simp only [List.mem_map, hmem]
  · exact (isLeastOf_minShift? hfull).congr fun _ => by simp only [List.mem_map, hmem]
  · exact (isLeastOf_minPoint? _).congr fun _ => by simp only [List.mem_filterMap, hmem]
  · simp only [get?_eq_none_iff hfull, hmem]
  · exact ⟨ascending_flatten ppems, fun h => (mem_flatten hget).trans (hmem (axis, h))⟩
  · have hlevels : ofCalls others = ofCalls calls :=
      eq_of_holds (noneEmpty_ofCalls others) hfull fun e => by
        rw [← mem_hints, ← mem_hints, mem_hints_ofCalls, hmem, hsame]
    have hmap : PhaseMap.ofCalls others = PhaseMap.ofCalls calls :=
      PhaseMap.eq_of_mem_iff fun e => by rw [PhaseMap.mem_ofCalls, PhaseMap.mem_ofCalls, hsame]
    exact ⟨hlevels, hmap, fun verify => ⟨fun pre => by rw [hmap], fun post => by rw [hmap]⟩⟩

/-- Ten calls, of which five are refused and one repeats another. -/
def shuffledCalls : List (Axis × Hint) :=
  [(.y, ⟨12, .pixels (1 / 2), some 3, .deltaP⟩), (.x, ⟨9, .pixels 0, some 1, .deltaP⟩),
    (.x, ⟨9, .infinite true, some 1, .deltaK⟩), (.y, ⟨12, .pixels (-1), none, .deltaG⟩),
    (.x, ⟨8, .nan false 1, none, .deltaG⟩), (.y, ⟨12, .pixels (1 / 2), some 3, .deltaP⟩),
    (.x, ⟨8, .pixels 1, none, .strokeDelta⟩), (.x, ⟨8, .pixels 1, some 0, .deltaG⟩),
    (.x, ⟨20, .pixels (1 / 2), some 7, .deltaS⟩), (.x, ⟨20, .pixels (1 / 2), some 2, .deltaL⟩)]

theorem ofCalls_canonical_shuffled :
    (∃ cause, ((ofCalls shuffledCalls).insert .x ⟨8, .pixels 1, some 0, .deltaG⟩).1 =
      .error cause) ∧
    (ofCalls shuffledCalls).size = 4 ∧
    ofCalls (accepted shuffledCalls).reverse = ofCalls shuffledCalls ∧
    GlyphPhases.encode ⟨none, .ofCalls (accepted shuffledCalls).reverse⟩ true =
      GlyphPhases.encode ⟨none, .ofCalls shuffledCalls⟩ true := by
  obtain ⟨hinsert, -, -, hsize, -, -, -, -, -, hothers⟩ := ofCalls_canonical shuffledCalls
  obtain ⟨hlevels, -, hencode⟩ := hothers (accepted shuffledCalls).reverse (by
    simp [accepted])
  exact ⟨(hinsert .x _).1.mpr (.inr (by decide)), hsize.trans (by decide +kernel), hlevels,
    (hencode true).1 none⟩

end PhaseLevels

end GlyphHints
