import GlyphHints.PhaseMap
import Mathlib.Data.List.Sort

/-!
# Elements of ascending lists

What an ascending list holds determines it. The distinct elements of a list and its ordering
have the elements of that list, and a least element is below every other one.
-/
namespace GlyphHints
variable {α : Type} {cmp : α → α → Ordering}

namespace Ascending

theorem nodup [Std.ReflCmp cmp] {l : List α} (h : Ascending cmp l) : l.Nodup := by
  refine h.imp fun {a b} hab => ?_
  rintro rfl
  simp [Std.ReflCmp.compare_self] at hab

/-- A list that is in order and holds nothing twice is ascending. -/
theorem of_isLE [Std.LawfulEqCmp cmp] {l : List α} (hle : l.Pairwise fun a b => (cmp a b).isLE)
    (hnodup : l.Nodup) : Ascending cmp l := by
  apply (hle.and hnodup).imp
  intro a b hab
  cases h : cmp a b with
  | lt => rfl
  | eq => exact absurd (Std.LawfulEqCmp.eq_of_compare h) hab.2
  | gt => simp [h] at hab

theorem eq_of_mem_iff [Std.TransCmp cmp] {l m : List α} (hl : Ascending cmp l)
    (hm : Ascending cmp m) (h : ∀ a, a ∈ l ↔ a ∈ m) : l = m := by
  have : Std.Irrefl fun a b : α => cmp a b = .lt := ⟨fun a => by simp [Std.ReflCmp.compare_self]⟩
  have : Std.Antisymm fun a b : α => cmp a b = .lt := ⟨fun a b hab hba => by
    have := Std.TransCmp.lt_trans hab hba
    simp [Std.ReflCmp.compare_self] at this⟩
  exact List.Pairwise.eq_of_mem_iff hl hm h

theorem mem_ofList [Std.LawfulEqCmp cmp] {a : α} {l : List α} : a ∈ ofList cmp l ↔ a ∈ l := by
  unfold ofList
  suffices ∀ set, a ∈ l.foldl (fun set a => insert cmp a set) set ↔ a ∈ set ∨ a ∈ l by
    simpa using this []
  induction l with
  | nil => simp
  | cons b l ih =>
    intro set
    rw [List.foldl_cons, ih, mem_insert, List.mem_cons]
    tauto

theorem ofList_perm [Std.TransCmp cmp] [Std.LawfulEqCmp cmp] {l : List α} (h : l.Nodup) :
    (ofList cmp l).Perm l :=
  (List.perm_ext_iff_of_nodup (ascending_ofList l).nodup h).mpr fun _ => mem_ofList

end Ascending

theorem sortBy_perm (l : List α) : (sortBy cmp l).Perm l := List.mergeSort_perm l _

theorem sortBy_pairwise [Std.TransCmp cmp] (l : List α) :
    (sortBy cmp l).Pairwise fun a b => (cmp a b).isLE := by
  apply List.pairwise_mergeSort
  · exact fun a b c => Std.TransCmp.isLE_trans
  · intro a b
    rw [Bool.or_eq_true]
    cases h : cmp a b with
    | lt | eq => exact .inl rfl
    | gt => exact .inr (Ordering.isLE_of_eq_lt (Std.OrientedCmp.gt_iff_lt.mp h))

theorem leastBy_eq_none {l : List α} : leastBy cmp l = none ↔ l = [] := by
  cases l <;> simp [leastBy]

theorem leastBy_eq_some [Std.TransCmp cmp] {l : List α} {m : α} (h : leastBy cmp l = some m) :
    m ∈ l ∧ ∀ a ∈ l, (cmp m a).isLE := by
  cases l with
  | nil => simp [leastBy] at h
  | cons a l =>
    simp only [leastBy, Option.some.injEq] at h
    subst h
    induction l generalizing a with
    | nil => simp [Std.ReflCmp.isLE_rfl]
    | cons b l ih =>
      -- The fold goes on from the lesser of `a` and `b`.
      obtain ⟨c, hc, hca, hcb, hstep⟩ : ∃ c, c ∈ [a, b] ∧ (cmp c a).isLE ∧ (cmp c b).isLE ∧
          (if cmp b a = .lt then b else a) = c := by
        split_ifs with hlt
        · exact ⟨b, by simp, by simp [hlt], Std.ReflCmp.isLE_rfl, rfl⟩
        · exact ⟨a, by simp, Std.ReflCmp.isLE_rfl,
            Std.OrientedCmp.isGE_iff_isLE.mp (Ordering.isGE_iff_ne_lt.mpr hlt), rfl⟩
      obtain ⟨hmem, hle⟩ := ih c
      rw [List.foldl_cons, hstep]
      have hleast := hle c List.mem_cons_self
      refine ⟨by grind, fun x hx => ?_⟩
      rcases List.mem_cons.mp hx with rfl | hx
      · exact Std.TransCmp.isLE_trans hleast hca
      · rcases List.mem_cons.mp hx with rfl | hx
        · exact Std.TransCmp.isLE_trans hleast hcb
        · exact hle x (List.mem_cons_of_mem c hx)

end GlyphHints
