import GlyphHints.Proofs.Sections

/-!
# Gathering is exhaustive

At every step a group holds exactly the hints of its key that no group has taken yet, and each key
that two of them share has its group. Gathering goes on as long as some group has two members, so
no two of the hints that it leaves share a key, and no key is gathered twice.
-/
namespace GlyphHints

namespace Group
variable {keys : Hint → List GroupKey} {hints taken : List Hint} {groups : List Group} {g : Group}
  {n : Nat}

/-! ## What is left -/

theorem untaken_nil (hints : List Hint) : untaken [] hints = hints := by
  simp [untaken]

theorem untaken_append (first second hints : List Hint) :
    untaken (first ++ second) hints = untaken second (untaken first hints) := by
  simp [untaken, List.filter_filter, Bool.and_comm]

/-- Taking some of the hints leaves fewer. -/
theorem length_untaken_lt {x : Hint} (hx : x ∈ hints) (htaken : x ∈ taken) :
    (untaken taken hints).length < hints.length := by
  apply List.length_filter_lt_length_iff_exists.mpr
  exact ⟨x, hx, by simpa using htaken⟩

/-! ## Classes -/

/-- Each group holds the hints of its key, and there is one for each key that two hints share. -/
structure Classifies (keys : Hint → List GroupKey) (hints : List Hint) (groups : List Group) :
    Prop where
  members : ∀ g ∈ groups, g.members = hints.filter g.key.admits
  exists_key : ∀ h ∈ hints, ∀ k ∈ keys h, 2 ≤ (hints.filter k.admits).length →
    ∃ g ∈ groups, g.key = k

theorem classifies_collect (keys : Hint → List GroupKey) (hints : List Hint) :
    Classifies keys hints (collect keys hints) where
  members g hg := by
    obtain ⟨key, -, rfl⟩ := List.mem_map.mp hg
    rfl
  exists_key h hh k hk _ := by
    have hkey : k ∈ (hints.flatMap keys).eraseDups :=
      List.mem_eraseDups.mpr (List.mem_flatMap.mpr ⟨h, hh, hk⟩)
    exact ⟨_, List.mem_map_of_mem hkey, rfl⟩

theorem filter_admits_untaken (k : GroupKey) (taken hints : List Hint) :
    untaken taken (hints.filter k.admits) = (untaken taken hints).filter k.admits := by
  simp [untaken, List.filter_filter, Bool.and_comm]

theorem Classifies.withdraw (h : Classifies keys hints groups) (taken : List Hint) :
    Classifies keys (untaken taken hints) (withdraw taken groups) where
  members g hg := by
    obtain ⟨f, hf, hkey, hmembers⟩ := mem_withdraw hg
    rw [hmembers, h.members f hf, hkey, filter_admits_untaken]
  exists_key x hx k hk hlength := by
    have hle : ((untaken taken hints).filter k.admits).length ≤ (hints.filter k.admits).length :=
      (List.filter_sublist.filter k.admits).length_le
    obtain ⟨g, hg, rfl⟩ := h.exists_key x (mem_untaken.mp hx).1 k hk (hlength.trans hle)
    refine ⟨_, List.mem_filter.mpr ⟨List.mem_map_of_mem hg, ?_⟩, rfl⟩
    change decide (2 ≤ (untaken taken g.members).length) = true
    rw [h.members g hg, filter_admits_untaken]
    exact decide_eq_true hlength

/-- Different hints share no key. -/
def Apart (keys : Hint → List GroupKey) (hints : List Hint) : Prop :=
  ∀ a ∈ hints, ∀ b ∈ hints, ∀ k ∈ keys a, k.admits a = true → k.admits b = true → a = b

/-- Where no group has two members, no two hints share a key. -/
theorem Classifies.apart (h : Classifies keys hints groups)
    (hsmall : ∀ g ∈ groups, g.members.length < 2) : Apart keys hints := by
  intro a ha b hb k hk hka hkb
  by_contra hne
  have hpair : [a, b].Nodup := by simpa using hne
  have hsubset : [a, b] ⊆ hints.filter k.admits := by
    intro x hx
    cases hx with
    | head => exact List.mem_filter.mpr ⟨ha, hka⟩
    | tail _ hx => exact List.mem_singleton.mp hx ▸ List.mem_filter.mpr ⟨hb, hkb⟩
  have hlength : 2 ≤ (hints.filter k.admits).length :=
    (List.subperm_of_subset hpair hsubset).length_le
  obtain ⟨g, hg, rfl⟩ := h.exists_key a ha k hk hlength
  rw [← h.members g hg] at hlength
  exact absurd (hsmall g hg) (Nat.not_lt.mpr hlength)

/-! ## Gathering -/

theorem Classifies.length_untaken_lt (h : Classifies keys hints groups)
    (hg : largest? groups = some g) : (untaken g.members hints).length < hints.length := by
  obtain ⟨hmem, hlength⟩ := largest?_eq_some hg
  obtain ⟨x, hx⟩ := List.exists_mem_of_length_pos (Nat.lt_of_lt_of_le Nat.two_pos hlength)
  have hhints : x ∈ hints.filter g.key.admits := h.members g hmem ▸ hx
  exact Group.length_untaken_lt (List.mem_of_mem_filter hhints) hx

/-- As many rounds as there are hints leave no two that share a key. -/
theorem Classifies.apart_gather (h : Classifies keys hints groups) (hn : hints.length ≤ n) :
    Apart keys (untaken ((gather n groups).flatMap (·.members)) hints) := by
  induction n generalizing hints groups with
  | zero =>
    obtain rfl : hints = [] := List.eq_nil_of_length_eq_zero (Nat.le_zero.mp hn)
    exact fun a ha => absurd ha List.not_mem_nil
  | succ n ih =>
    unfold gather
    split
    · rename_i hnone
      rw [List.flatMap_nil, untaken_nil]
      exact h.apart (length_lt_of_largest?_eq_none hnone)
    · rename_i g hg
      rw [List.flatMap_cons, untaken_append]
      apply ih (h.withdraw g.members)
      exact Nat.le_of_lt_succ (Nat.lt_of_lt_of_le (h.length_untaken_lt hg) hn)

/-- A gathered group has two members or more, and its key is theirs. -/
theorem Classifies.of_mem_gather (h : Classifies keys hints groups) (hg : g ∈ gather n groups) :
    2 ≤ g.members.length ∧ ∀ x ∈ g.members, g.key.admits x = true := by
  apply forall_mem_gather (P := fun left => ∃ hints, Classifies keys hints left)
    (Q := fun g => 2 ≤ g.members.length ∧ ∀ x ∈ g.members, g.key.admits x = true) _ ⟨hints, h⟩ hg
  intro left first hleft hfirst
  obtain ⟨hints, h⟩ := hleft
  obtain ⟨hmem, hlength⟩ := largest?_eq_some hfirst
  refine ⟨⟨hlength, fun x hx => ?_⟩, _, h.withdraw first.members⟩
  rw [h.members first hmem] at hx
  exact (List.mem_filter.mp hx).2

/-- A group takes all that is left of its key, so no later group has the same key. -/
theorem Classifies.nodup_keys (h : Classifies keys hints groups) :
    ((gather n groups).map (·.key)).Nodup := by
  induction n generalizing hints groups with
  | zero => exact List.nodup_nil
  | succ n ih =>
    unfold gather
    split
    · exact List.nodup_nil
    · rename_i first hfirst
      have hlater := h.withdraw first.members
      refine List.nodup_cons.mpr ⟨fun hmem => ?_, ih hlater⟩
      obtain ⟨g, hg, hkey⟩ := List.mem_map.mp hmem
      obtain ⟨f, hf, hfg⟩ := exists_of_mem_gather hg
      have hlength : 2 ≤ f.members.length := of_decide_eq_true (List.mem_filter.mp hf).2
      obtain ⟨x, hx⟩ := List.exists_mem_of_length_pos (Nat.lt_of_lt_of_le Nat.two_pos hlength)
      rw [hlater.members f hf, hfg, hkey] at hx
      obtain ⟨hleft, hadmits⟩ := List.mem_filter.mp hx
      obtain ⟨hhints, hfree⟩ := mem_untaken.mp hleft
      apply hfree
      rw [h.members first (largest?_eq_some hfirst).1]
      exact List.mem_filter.mpr ⟨hhints, hadmits⟩

end Group

end GlyphHints
