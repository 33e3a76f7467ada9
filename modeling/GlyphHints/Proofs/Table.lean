import GlyphHints.Proofs.Ascending
import GlyphHints.Tally
import Mathlib.Algebra.BigOperators.Group.List.Basic

/-!
# Tables under merging

A table is known by what it holds under each key. Changing the value under a key touches no
other one, and a merged table holds under each key what the two tables hold there together. So
the tables over a commutative monoid are a commutative monoid, and tables of tables are one too.
-/
namespace GlyphHints

namespace Table
variable {κ β : Type} [Ord κ] [Std.LawfulEqOrd κ]

/-! ## Values under keys -/

/-- The value under a key in a list of entries. -/
def lookup (l : List (κ × β)) (k : κ) : Option β :=
  (l.find? fun e => compare k e.1 == .eq).map (·.2)

theorem lookup_eq_none {l : List (κ × β)} {k : κ} : lookup l k = none ↔ k ∉ l.map (·.1) := by
  simp only [lookup, Option.map_eq_none_iff, List.find?_eq_none, beq_iff_eq,
    Std.compare_eq_iff_eq, List.mem_map, not_exists, not_and]
  exact ⟨fun h e he heq => h e he heq.symm, fun h e he heq => h e he heq.symm⟩

variable [DecidableEq κ]

theorem lookup_cons (b : κ) (v : β) (l : List (κ × β)) (k : κ) :
    lookup ((b, v) :: l) k = if k = b then some v else lookup l k := by
  unfold lookup
  rw [List.find?_cons]
  split <;> simp_all

/-- A table with one key. -/
def single (k : κ) (v : β) : Table κ β := ⟨[(k, v)], List.pairwise_singleton _ k⟩

theorem get?_single (k : κ) (v : β) (j : κ) :
    (single k v).get? j = if j = k then some v else none := lookup_cons k v [] j

theorem mem_iff_lookup {l : List (κ × β)} {k : κ} {v : β} (h : Ascending compare (l.map (·.1))) :
    (k, v) ∈ l ↔ lookup l k = some v := by
  induction l with
  | nil => simp [lookup]
  | cons e l ih =>
    obtain ⟨b, w⟩ := e
    have hb : b ∉ l.map (·.1) := (List.nodup_cons.mp h.nodup).1
    have hl := ih (List.pairwise_cons.mp h).2
    rw [lookup_cons, List.mem_cons, Prod.mk.injEq]
    split_ifs with hkb
    · subst hkb
      have hnone : (k, v) ∉ l := fun hmem => hb (List.mem_map_of_mem hmem)
      simp [hnone, eq_comm]
    · simp [hkb, hl]

variable [Std.TransOrd κ] {t u : Table κ β} {l : List (κ × β)} {j k : κ} {initial v : β}

theorem lookup_updateEntries {change : β → β} (h : Ascending compare (l.map (·.1))) :
    lookup (updateEntries k initial change l) j =
      if j = k then some (change ((lookup l k).getD initial)) else lookup l j := by
  induction l with
  | nil => exact lookup_cons k (change initial) [] j
  | cons e l ih =>
    obtain ⟨b, v⟩ := e
    obtain ⟨hb, hl⟩ := List.pairwise_cons.mp h
    unfold updateEntries
    cases hk : compare k b with
    | lt =>
      have hbelow : ∀ c ∈ b :: l.map (·.1), compare k c = .lt :=
        List.forall_mem_cons.mpr ⟨hk, fun c hc => Std.TransCmp.lt_trans hk (hb c hc)⟩
      have hnone : lookup ((b, v) :: l) k = none := lookup_eq_none.mpr fun hmem => by
        simpa [Std.ReflCmp.compare_self] using hbelow k hmem
      rw [lookup_cons, hnone, Option.getD_none]
    | eq =>
      obtain rfl := Std.compare_eq_iff_eq.mp hk
      simp only [lookup_cons, if_true, Option.getD_some]
      split_ifs <;> rfl
    | gt =>
      have hkb : k ≠ b := fun heq => by simp [heq, Std.ReflCmp.compare_self] at hk
      simp only [lookup_cons, ih hl, if_neg hkb]
      split_ifs with hjb hjk <;> simp_all

/-- Changing the value under a key leaves the others as they are. -/
theorem get?_update (t : Table κ β) (k : κ) (initial : β) (change : β → β) (j : κ) :
    (t.update k initial change).get? j =
      if j = k then some (change ((t.get? k).getD initial)) else t.get? j :=
  lookup_updateEntries t.ascending

/-- Tables are equal if they hold the same under each key. -/
theorem ext_get? (h : ∀ k, t.get? k = u.get? k) : t = u := by
  have hmem : ∀ e, e ∈ t.entries ↔ e ∈ u.entries := fun ⟨k, v⟩ => by
    rw [mem_iff_lookup t.ascending, mem_iff_lookup u.ascending]
    exact iff_of_eq (congrArg (· = some v) (h k))
  have hascending : ∀ w : Table κ β, Ascending (compareVia compare Prod.fst) w.entries :=
    fun w => List.pairwise_map.mp w.ascending
  have hentries : t.entries = u.entries :=
    Ascending.eq_of_mem_iff (hascending t) (hascending u) hmem
  cases t
  cases u
  congr

/-! ## Merging -/

theorem get?_foldl_update (combine : β → β → β) (h : Ascending compare (l.map (·.1)))
    (t : Table κ β) (k : κ) :
    (l.foldl (fun t e => t.update e.1 initial (combine · e.2)) t).get? k =
      match lookup l k with
      | none => t.get? k
      | some v => some (combine ((t.get? k).getD initial) v) := by
  induction l generalizing t with
  | nil => rfl
  | cons e l ih =>
    obtain ⟨b, v⟩ := e
    have hb : lookup l b = none := lookup_eq_none.mpr (List.nodup_cons.mp h.nodup).1
    rw [List.foldl_cons, ih (List.pairwise_cons.mp h).2, lookup_cons, get?_update]
    by_cases hkb : k = b
    · subst hkb
      simp [hb]
    · simp [hkb]

theorem get?_mergeWith (initial : β) (combine : β → β → β) (t u : Table κ β) (k : κ) :
    (t.mergeWith initial combine u).get? k =
      match u.get? k with
      | none => t.get? k
      | some v => some (combine ((t.get? k).getD initial) v) :=
  get?_foldl_update combine u.ascending t k

variable {γ : Type} [AddCommMonoid γ]

instance : Zero (Table κ γ) := ⟨empty⟩

instance : Add (Table κ γ) := ⟨mergeWith 0 (· + ·)⟩

theorem get?_add (t u : Table κ γ) (k : κ) :
    (t + u).get? k = Option.merge (· + ·) (t.get? k) (u.get? k) := by
  change (t.mergeWith 0 (· + ·) u).get? k = _
  rw [get?_mergeWith]
  cases t.get? k <;> cases u.get? k <;> simp

instance : AddCommMonoid (Table κ γ) where
  add_assoc t u w := ext_get? fun k => by
    simp only [get?_add]
    cases t.get? k <;> cases u.get? k <;> cases w.get? k <;> simp [add_assoc]
  zero_add t := ext_get? fun k => (get?_add 0 t k).trans Option.merge_none_left
  add_zero t := ext_get? fun k => (get?_add t 0 k).trans Option.merge_none_right
  add_comm t u := ext_get? fun k => by
    simp only [get?_add]
    cases t.get? k <;> cases u.get? k <;> simp [add_comm]
  nsmul := nsmulRec

end Table

end GlyphHints
