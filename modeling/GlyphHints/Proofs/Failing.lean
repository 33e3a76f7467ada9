import Mathlib.Data.List.Forall2
import Mathlib.Data.List.Perm.Basic

/-!
# Steps that can fail

A sequence of steps succeeds if each of them does, and the first failure is that of the whole.
-/
namespace GlyphHints
variable {ε α β : Type}

theorem bind_eq_ok {x : Except ε α} {f : α → Except ε β} {b : β} :
    (x >>= f) = .ok b ↔ ∃ a, x = .ok a ∧ f a = .ok b := by
  cases x <;> simp [bind, Except.bind]

theorem bind_eq_error {x : Except ε α} {f : α → Except ε β} {e : ε} :
    (x >>= f) = .error e ↔ x = .error e ∨ ∃ a, x = .ok a ∧ f a = .error e := by
  cases x <;> simp [bind, Except.bind]

theorem map_eq_ok {x : Except ε α} {f : α → β} {b : β} :
    x.map f = .ok b ↔ ∃ a, x = .ok a ∧ f a = b := by
  cases x <;> simp [Except.map]

theorem map_eq_error {x : Except ε α} {f : α → β} {e : ε} :
    x.map f = .error e ↔ x = .error e := by
  cases x <;> simp [Except.map]

/-- What every step extends by its element, the fold extends by the list. -/
theorem foldlM_extends {f : β → α → Except ε β} {P : β → List α → Prop} {l : List α}
    (step : ∀ b c done, ∀ a ∈ l, P b done → f b a = .ok c → P c (done ++ [a])) :
    ∀ {b c : β} {done : List α}, P b done → l.foldlM f b = .ok c → P c (done ++ l) := by
  induction l with
  | nil =>
    intro b c done hb h
    cases h
    simpa using hb
  | cons a l ih =>
    intro b c done hb h
    rw [List.foldlM_cons] at h
    obtain ⟨d, hd, hl⟩ := bind_eq_ok.mp h
    have hnext := step b d done a List.mem_cons_self hb hd
    simpa using ih (fun b c done x hx => step b c done x (List.mem_cons_of_mem a hx)) hnext hl

theorem foldlM_preserves {f : β → α → Except ε β} {P : β → Prop} {l : List α} {b c : β}
    (step : ∀ b c, ∀ a ∈ l, P b → f b a = .ok c → P c) (hb : P b) (h : l.foldlM f b = .ok c) :
    P c :=
  @foldlM_extends ε α β f (fun b _ => P b) l (fun b c _ => step b c) b c [] hb h

/-- A fold that fails does so at an element, after it has succeeded on those before. -/
theorem exists_of_foldlM_eq_error {f : β → α → Except ε β} {l : List α} {e : ε} {b : β}
    (h : l.foldlM f b = .error e) : ∃ before a after c, l = before ++ a :: after ∧
      before.foldlM f b = .ok c ∧ f c a = .error e := by
  induction l generalizing b with
  | nil => cases h
  | cons a l ih =>
    rw [List.foldlM_cons] at h
    rcases bind_eq_error.mp h with h | ⟨d, hd, h⟩
    · exact ⟨[], a, l, b, rfl, rfl, h⟩
    · obtain ⟨before, x, after, c, rfl, hc, hx⟩ := ih h
      exact ⟨a :: before, x, after, c, rfl, bind_eq_ok.mpr ⟨d, hd, hc⟩, hx⟩

theorem foldlM_eq_error {f : β → α → Except ε β} {l : List α} {e : ε} {b : β}
    (h : l.foldlM f b = .error e) : ∃ a ∈ l, ∃ c, f c a = .error e := by
  obtain ⟨before, a, after, c, rfl, -, ha⟩ := exists_of_foldlM_eq_error h
  exact ⟨a, List.mem_append_right before List.mem_cons_self, c, ha⟩

/-- A map over a list succeeds exactly if it does at each element. -/
theorem mapM_eq_ok_iff {f : α → Except ε β} {l : List α} {m : List β} :
    l.mapM f = .ok m ↔ List.Forall₂ (fun a b => f a = .ok b) l m := by
  induction l generalizing m with
  | nil =>
    rw [List.mapM_nil, List.forall₂_nil_left_iff]
    exact ⟨fun h => (Except.ok.inj h).symm, fun h => h ▸ rfl⟩
  | cons a l ih =>
    rw [List.mapM_cons, List.forall₂_cons_left_iff]
    constructor
    · intro h
      obtain ⟨b, hb, h⟩ := bind_eq_ok.mp h
      obtain ⟨rest, hrest, h⟩ := bind_eq_ok.mp h
      exact ⟨b, rest, hb, ih.mp hrest, (Except.ok.inj h).symm⟩
    · rintro ⟨b, rest, hb, hrest, rfl⟩
      exact bind_eq_ok.mpr ⟨b, hb, bind_eq_ok.mpr ⟨rest, ih.mpr hrest, rfl⟩⟩

theorem mapM_append_eq_ok {f : α → Except ε β} {l l' : List α} {m : List β}
    (h : (l ++ l').mapM f = .ok m) :
    ∃ a b, l.mapM f = .ok a ∧ l'.mapM f = .ok b ∧ m = a ++ b := by
  rw [List.mapM_append] at h
  obtain ⟨a, ha, h⟩ := bind_eq_ok.mp h
  obtain ⟨b, hb, h⟩ := bind_eq_ok.mp h
  exact ⟨a, b, ha, hb, (Except.ok.inj h).symm⟩

/-- A map over a list that succeeds does so in any order. -/
theorem exists_mapM_of_perm {f : α → Except ε β} {l l' : List α} {m : List β}
    (h : l.mapM f = .ok m) (hperm : l'.Perm l) : ∃ m', l'.mapM f = .ok m' ∧ m'.Perm m := by
  obtain ⟨m', hm', hperm'⟩ := List.perm_comp_forall₂ hperm (mapM_eq_ok_iff.mp h)
  exact ⟨m', mapM_eq_ok_iff.mpr hm', hperm'⟩

theorem exists_of_mem_mapM {f : α → Except ε β} {l : List α} {m : List β} {b : β}
    (h : l.mapM f = .ok m) (hb : b ∈ m) : ∃ a ∈ l, f a = .ok b := by
  induction mapM_eq_ok_iff.mp h with
  | nil => exact absurd hb List.not_mem_nil
  | @cons a c l m hc hrest ih =>
    cases hb with
    | head => exact ⟨a, List.mem_cons_self, hc⟩
    | tail _ hb =>
      obtain ⟨x, hx, hbx⟩ := ih (mapM_eq_ok_iff.mpr hrest) hb
      exact ⟨x, List.mem_cons_of_mem a hx, hbx⟩

theorem exists_mem_of_mapM {f : α → Except ε β} {l : List α} {m : List β} {a : α}
    (h : l.mapM f = .ok m) (ha : a ∈ l) : ∃ b ∈ m, f a = .ok b := by
  induction mapM_eq_ok_iff.mp h with
  | nil => exact absurd ha List.not_mem_nil
  | @cons c b l m hb hrest ih =>
    cases ha with
    | head => exact ⟨b, List.mem_cons_self, hb⟩
    | tail _ ha =>
      obtain ⟨x, hx, hax⟩ := ih (mapM_eq_ok_iff.mpr hrest) ha
      exact ⟨x, List.mem_cons_of_mem b hx, hax⟩

theorem exists_mapM_eq_ok {f : α → Except ε β} {l : List α} (h : ∀ a ∈ l, ∃ b, f a = .ok b) :
    ∃ m, l.mapM f = .ok m := by
  induction l with
  | nil => exact ⟨[], rfl⟩
  | cons a l ih =>
    obtain ⟨⟨b, hb⟩, hl⟩ := List.forall_mem_cons.mp h
    obtain ⟨m, hm⟩ := ih hl
    rw [List.mapM_cons]
    exact ⟨b :: m, bind_eq_ok.mpr ⟨b, hb, bind_eq_ok.mpr ⟨m, hm, rfl⟩⟩⟩

/-- A map over a list fails as it does at the first element where it does. -/
theorem mapM_eq_error {f : α → Except ε β} {before after : List α} {a : α} {e : ε}
    (h : ∀ b ∈ before, ∃ c, f b = .ok c) (ha : f a = .error e) :
    (before ++ a :: after).mapM f = .error e := by
  induction before with
  | nil =>
    rw [List.nil_append, List.mapM_cons]
    exact bind_eq_error.mpr (.inl ha)
  | cons b before ih =>
    obtain ⟨⟨c, hc⟩, hbefore⟩ := List.forall_mem_cons.mp h
    rw [List.cons_append, List.mapM_cons]
    exact bind_eq_error.mpr (.inr ⟨c, hc, bind_eq_error.mpr (.inl (ih hbefore))⟩)

end GlyphHints
