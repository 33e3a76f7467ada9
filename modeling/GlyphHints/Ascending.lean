/-!
# Strictly ascending lists

A finite set over a linear order is kept as the list of its elements in strictly ascending
order, so that equal sets are equal lists. Insertion is the only way to build one:
`mem_insert` says what it does to the elements and `ascending_insert` that the order stays.
-/
namespace GlyphHints

/-- The order `cmp` gives to the images under `f`. -/
def compareVia {α β : Type} (cmp : β → β → Ordering) (f : α → β) (a b : α) : Ordering :=
  cmp (f a) (f b)

instance {α β : Type} (cmp : β → β → Ordering) (f : α → β) [Std.TransCmp cmp] :
    Std.TransCmp (compareVia cmp f) where
  eq_swap {a b} := @Std.OrientedCmp.eq_swap β cmp _ (f a) (f b)
  isLE_trans {a b c} := @Std.TransCmp.isLE_trans β cmp _ (f a) (f b) (f c)

/-- Orders a list; equal elements stay in the order they come in. -/
def sortBy {α : Type} (cmp : α → α → Ordering) (l : List α) : List α :=
  l.mergeSort fun a b => (cmp a b).isLE

def Ascending {α : Type} (cmp : α → α → Ordering) (l : List α) : Prop :=
  l.Pairwise (fun a b => cmp a b = .lt)

namespace Ascending
variable {α : Type} (cmp : α → α → Ordering)

/-- Adds an element at its place; one that is there already changes nothing. -/
def insert (a : α) : List α → List α
  | [] => [a]
  | b :: l =>
    match cmp a b with
    | .lt => a :: b :: l
    | .eq => b :: l
    | .gt => b :: insert a l

/-- The distinct elements of a list, in ascending order. -/
def ofList (l : List α) : List α :=
  l.foldl (fun set a => insert cmp a set) []

variable {cmp}

theorem nil : Ascending cmp [] := List.Pairwise.nil

theorem mem_insert [Std.LawfulEqCmp cmp] {a x : α} {l : List α} :
    x ∈ insert cmp a l ↔ x = a ∨ x ∈ l := by
  induction l with
  | nil => simp [insert]
  | cons b l ih =>
    unfold insert
    split
    · simp
    · rename_i h
      simp [Std.LawfulEqCmp.eq_of_compare h]
    · simp only [List.mem_cons, ih]
      grind

theorem ascending_insert [Std.TransCmp cmp] [Std.LawfulEqCmp cmp] {a : α} {l : List α}
    (h : Ascending cmp l) : Ascending cmp (insert cmp a l) := by
  induction l with
  | nil => simp [insert, Ascending]
  | cons b l ih =>
    obtain ⟨hb, hl⟩ := List.pairwise_cons.mp h
    unfold insert
    split
    · rename_i hab
      refine List.pairwise_cons.mpr ⟨fun c hc => ?_, h⟩
      rcases List.mem_cons.mp hc with rfl | hc
      · exact hab
      · exact Std.TransCmp.lt_trans hab (hb c hc)
    · exact h
    · rename_i hab
      refine List.pairwise_cons.mpr ⟨fun c hc => ?_, ih hl⟩
      rcases mem_insert.mp hc with rfl | hc
      · exact Std.OrientedCmp.gt_iff_lt.mp hab
      · exact hb c hc

theorem ascending_ofList [Std.TransCmp cmp] [Std.LawfulEqCmp cmp] (l : List α) :
    Ascending cmp (ofList cmp l) := by
  unfold ofList
  suffices ∀ set, Ascending cmp set →
      Ascending cmp (l.foldl (fun set a => insert cmp a set) set) from this [] nil
  induction l with
  | nil => exact fun _ h => h
  | cons a l ih => exact fun set h => ih _ (ascending_insert h)

end Ascending

end GlyphHints
