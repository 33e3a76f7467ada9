import GlyphHints.PhaseMap.Levels
import GlyphHints.Proofs.Table

/-!
# Tables of tables

What lies in a table of tables lies under a key in one of them. As long as no table on any level is
empty, what lies in it determines the whole, and putting one more thing in keeps it so.
-/
namespace GlyphHints

/-! ## Least elements -/

/-- The least element of a list, if the list has any. -/
def IsLeastOf {α : Type} [Ord α] (l : List α) : Option α → Prop
  | none => l = []
  | some a => a ∈ l ∧ ∀ b ∈ l, (compare a b).isLE = true

section
variable {α : Type} [Ord α] {l l' : List α} {o o' : Option α}

theorem IsLeastOf.congr (h : IsLeastOf l o) (hmem : ∀ a, a ∈ l ↔ a ∈ l') : IsLeastOf l' o := by
  cases o with
  | none =>
    obtain rfl : l = [] := h
    exact List.eq_nil_iff_forall_not_mem.mpr fun a ha => List.not_mem_nil ((hmem a).mpr ha)
  | some a => exact ⟨(hmem a).mp h.1, fun b hb => h.2 b ((hmem b).mpr hb)⟩

variable [Std.TransOrd α]

theorem isLeastOf_leastBy (l : List α) : IsLeastOf l (leastBy compare l) := by
  cases h : leastBy compare l with
  | none => exact leastBy_eq_none.mp h
  | some a => exact leastBy_eq_some h

theorem IsLeastOf.unique [Std.LawfulEqOrd α] (h : IsLeastOf l o) (h' : IsLeastOf l o') :
    o = o' := by
  cases o with
  | none =>
    obtain rfl : l = [] := h
    cases o' with
    | none => rfl
    | some b => exact absurd h'.1 List.not_mem_nil
  | some a =>
    cases o' with
    | none =>
      obtain rfl : l = [] := h'
      exact absurd h.1 List.not_mem_nil
    | some b =>
      have heq := Std.OrientedCmp.isLE_antisymm (h.2 b h'.1) (h'.2 a h.1)
      rw [Std.LawfulEqOrd.eq_of_compare heq]

end

namespace Table
variable {κ β γ : Type} [Ord κ]

theorem mem_entries_iff [Std.LawfulEqOrd κ] [DecidableEq κ] {t : Table κ β} {e : κ × β} :
    e ∈ t.entries ↔ t.get? e.1 = some e.2 :=
  mem_iff_lookup t.ascending

variable [Std.TransOrd κ]

/-- The least of the least keys of tables is the least of all their keys. -/
theorem isLeastOf_firstKeys (tables : List (Table κ β)) :
    IsLeastOf (tables.flatMap fun t => t.entries.map (·.1))
      (leastBy compare (tables.filterMap firstKey?)) := by
  have hfirst : ∀ t : Table κ β, ∀ k ∈ t.entries.map (·.1),
      ∃ first, t.firstKey? = some first ∧ (compare first k).isLE = true := by
    rintro ⟨entries, hascending⟩ k hk
    cases entries with
    | nil => exact absurd hk List.not_mem_nil
    | cons e entries =>
      refine ⟨e.1, rfl, ?_⟩
      rcases List.mem_cons.mp hk with rfl | hk
      · exact Std.ReflCmp.isLE_rfl
      · exact Ordering.isLE_of_eq_lt ((List.pairwise_cons.mp hascending).1 k hk)
  cases h : leastBy compare (tables.filterMap firstKey?) with
  | none =>
    refine List.eq_nil_iff_forall_not_mem.mpr fun k hk => ?_
    obtain ⟨t, ht, hkey⟩ := List.mem_flatMap.mp hk
    obtain ⟨first, hsome, -⟩ := hfirst t k hkey
    have hnone := List.filterMap_eq_nil_iff.mp (leastBy_eq_none.mp h) t ht
    exact Option.some_ne_none first (hsome.symm.trans hnone)
  | some least =>
    obtain ⟨hmem, hleast⟩ := leastBy_eq_some h
    constructor
    · obtain ⟨t, ht, hkey⟩ := List.mem_filterMap.mp hmem
      obtain ⟨e, he, rfl⟩ := Option.map_eq_some_iff.mp hkey
      exact List.mem_flatMap.mpr ⟨t, ht, List.mem_map_of_mem (List.mem_of_mem_head? he)⟩
    · intro k hk
      obtain ⟨t, ht, hkey⟩ := List.mem_flatMap.mp hk
      obtain ⟨first, hsome, hle⟩ := hfirst t k hkey
      exact Std.TransCmp.isLE_trans (hleast first (List.mem_filterMap.mpr ⟨t, ht, hsome⟩)) hle

variable [Std.LawfulEqOrd κ] [DecidableEq κ] {t u : Table κ β} {k : κ} {v initial : β}
  {change : β → β}

/-! ## Levels -/

/-- A table with keys, and with values of some kind only. -/
structure Filled (P : β → Prop) (t : Table κ β) : Prop where
  nonempty : t.entries ≠ []
  values : ∀ e ∈ t.entries, P e.2

/-- What lies under a key of a table, given what lies in its values. -/
def Under (lies : β → γ → Prop) (t : Table κ β) (x : κ × γ) : Prop :=
  ∃ v, t.get? x.1 = some v ∧ lies v x.2

/-- Values of some kind have something in them, and are determined by it. -/
structure Determined (lies : β → γ → Prop) (P : β → Prop) : Prop where
  exists_lies : ∀ v, P v → ∃ x, lies v x
  ext : ∀ v w, P v → P w → (∀ x, lies v x ↔ lies w x) → v = w

variable {lies : β → γ → Prop} {P : β → Prop}

theorem eq_of_under (h : Determined lies P) (ht : ∀ e ∈ t.entries, P e.2)
    (hu : ∀ e ∈ u.entries, P e.2) (hsame : ∀ x, Under lies t x ↔ Under lies u x) : t = u := by
  have hvalue : ∀ {t : Table κ β}, (∀ e ∈ t.entries, P e.2) → ∀ k v, t.get? k = some v → P v :=
    fun ht k v hv => ht (k, v) (mem_entries_iff.mpr hv)
  refine ext_get? fun k => ?_
  -- A key of one table has something under it, so it is a key of the other.
  cases hv : t.get? k with
  | none =>
    cases hw : u.get? k with
    | none => rfl
    | some w =>
      obtain ⟨x, hx⟩ := h.exists_lies w (hvalue hu k w hw)
      obtain ⟨v, hsome, -⟩ := (hsame (k, x)).mpr ⟨w, hw, hx⟩
      cases hv.symm.trans hsome
  | some v =>
    cases hw : u.get? k with
    | none =>
      obtain ⟨x, hx⟩ := h.exists_lies v (hvalue ht k v hv)
      obtain ⟨w, hsome, -⟩ := (hsame (k, x)).mp ⟨v, hv, hx⟩
      cases hw.symm.trans hsome
    | some w =>
      refine congrArg some (h.ext v w (hvalue ht k v hv) (hvalue hu k w hw) fun x => ?_)
      have hx := hsame (k, x)
      simpa [Under, hv, hw] using hx

/-- So are tables of such values that are not empty. -/
theorem Determined.table (h : Determined lies P) :
    Determined (Under (κ := κ) lies) (Filled (κ := κ) P) where
  exists_lies t ht := by
    obtain ⟨e, he⟩ := List.exists_mem_of_ne_nil _ ht.nonempty
    obtain ⟨x, hx⟩ := h.exists_lies e.2 (ht.values e he)
    exact ⟨(e.1, x), e.2, mem_entries_iff.mp he, hx⟩
  ext _ _ ht hu := eq_of_under h ht.values hu.values

theorem filled_update (ht : ∀ e ∈ t.entries, P e.2) (hinitial : P (change initial))
    (hchange : ∀ v, P v → P (change v)) : Filled P (t.update k initial change) where
  nonempty := by
    have hk : (t.update k initial change).get? k = some (change ((t.get? k).getD initial)) := by
      rw [get?_update, if_pos rfl]
    exact List.ne_nil_of_mem (mem_entries_iff (e := (k, _)).mpr hk)
  values e he := by
    have hget := mem_entries_iff.mp he
    rw [get?_update] at hget
    split_ifs at hget with hk
    · obtain rfl := hk
      rw [← Option.some.inj hget]
      cases hv : t.get? e.1 with
      | none => exact hinitial
      | some v => exact hchange v (ht (e.1, v) (mem_entries_iff.mpr hv))
    · exact ht e (mem_entries_iff.mpr hget)

/-- What is put into the value under a key is put under that key. -/
theorem under_update {y : γ} (hinitial : ∀ x, ¬ lies initial x)
    (hchange : ∀ v x, lies (change v) x ↔ x = y ∨ lies v x) (x : κ × γ) :
    Under lies (t.update k initial change) x ↔ x = (k, y) ∨ Under lies t x := by
  obtain ⟨j, x⟩ := x
  simp only [Under, get?_update]
  by_cases hj : j = k
  · subst hj
    cases t.get? j <;> simp [hchange, hinitial]
  · simp [hj]

end Table

end GlyphHints
