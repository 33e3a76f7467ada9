import GlyphHints.Grouping
import GlyphHints.Proofs.Ascending

/-!
# Grouping keeps every hint

Each group that is gathered takes its members out of the groups that remain, so no hint is
gathered twice, and what no group has claimed goes into the last section.
-/
namespace GlyphHints

namespace Group

/-- One step of the search for the largest group. -/
def keepLarger (best : Option Group) (g : Group) : Option Group :=
  if 2 ≤ g.members.length ∧ ∀ b ∈ best, b.members.length < g.members.length then some g else best

theorem largest?_eq_foldl (groups : List Group) : largest? groups = groups.foldl keepLarger none :=
  rfl

theorem foldl_keepLarger_eq_some {groups : List Group} {best : Option Group} {g : Group}
    (h : groups.foldl keepLarger best = some g) :
    best = some g ∨ g ∈ groups ∧ 2 ≤ g.members.length := by
  induction groups generalizing best with
  | nil => exact .inl h
  | cons a groups ih =>
    cases ih h with
    | inl h =>
      unfold keepLarger at h
      split_ifs at h with ha
      · cases h
        exact .inr ⟨List.mem_cons_self, ha.1⟩
      · exact .inl h
    | inr h => exact .inr ⟨List.mem_cons_of_mem a h.1, h.2⟩

theorem foldl_keepLarger_eq_none {groups : List Group} {best : Option Group}
    (h : groups.foldl keepLarger best = none) :
    best = none ∧ ∀ g ∈ groups, g.members.length < 2 := by
  induction groups generalizing best with
  | nil => exact ⟨h, List.forall_mem_nil _⟩
  | cons a groups ih =>
    obtain ⟨hkeep, hgroups⟩ := ih h
    unfold keepLarger at hkeep
    split_ifs at hkeep with ha
    subst hkeep
    refine ⟨rfl, List.forall_mem_cons.mpr ⟨Nat.lt_of_not_le fun hle => ha ⟨hle, ?_⟩, hgroups⟩⟩
    exact fun b hb => absurd hb (Option.not_mem_none b)

theorem largest?_eq_some {groups : List Group} {g : Group} (h : largest? groups = some g) :
    g ∈ groups ∧ 2 ≤ g.members.length := by
  rw [largest?_eq_foldl] at h
  exact (foldl_keepLarger_eq_some h).resolve_left nofun

theorem length_lt_of_largest?_eq_none {groups : List Group} (h : largest? groups = none) :
    ∀ g ∈ groups, g.members.length < 2 := by
  rw [largest?_eq_foldl] at h
  exact (foldl_keepLarger_eq_none h).2

/-- The hints that are not among those taken. -/
def untaken (taken hints : List Hint) : List Hint := hints.filter (!taken.contains ·)

theorem mem_untaken {taken hints : List Hint} {x : Hint} :
    x ∈ untaken taken hints ↔ x ∈ hints ∧ x ∉ taken := by
  simp [untaken]

theorem mem_withdraw {taken : List Hint} {groups : List Group} {g : Group}
    (h : g ∈ withdraw taken groups) :
    ∃ f ∈ groups, g.key = f.key ∧ g.members = untaken taken f.members := by
  obtain ⟨f, hf, rfl⟩ := List.mem_map.mp (List.mem_filter.mp h).1
  exact ⟨f, hf, rfl, rfl⟩

/-- What the largest group has wherever withdrawals lead to, each gathered group has. -/
theorem forall_mem_gather {P : List Group → Prop} {Q : Group → Prop} {n : Nat}
    {groups : List Group} {g : Group}
    (step : ∀ groups g, P groups → largest? groups = some g → Q g ∧ P (withdraw g.members groups))
    (h : P groups) (hg : g ∈ gather n groups) : Q g := by
  induction n generalizing groups with
  | zero => exact absurd hg List.not_mem_nil
  | succ n ih =>
    unfold gather at hg
    split at hg
    · exact absurd hg List.not_mem_nil
    · rename_i first hfirst
      obtain ⟨hlargest, hrest⟩ := step groups first h hfirst
      cases hg with
      | head => exact hlargest
      | tail _ hg => exact ih hrest hg

/-- Groups whose members are among the given hints, each at most once. -/
def Within (hints : List Hint) (groups : List Group) : Prop :=
  ∀ g ∈ groups, g.members.Sublist hints

variable {hints : List Hint} {groups : List Group}

theorem within_collect (keys : Hint → List GroupKey) (hints : List Hint) :
    Within hints (collect keys hints) := by
  intro g hg
  obtain ⟨key, _, rfl⟩ := List.mem_map.mp hg
  exact List.filter_sublist

theorem Within.withdraw (h : Within hints groups) (taken : List Hint) :
    Within (untaken taken hints) (withdraw taken groups) := by
  intro g hg
  obtain ⟨f, hf, -, hm⟩ := mem_withdraw hg
  exact hm ▸ (h f hf).filter _

theorem Within.mono {all : List Hint} (h : Within hints groups) (hs : hints.Sublist all) :
    Within all groups :=
  fun g hg => (h g hg).trans hs

theorem Within.gather (h : Within hints groups) (n : Nat) : Within hints (gather n groups) := by
  intro g hg
  apply forall_mem_gather (P := Within hints) (Q := fun g => g.members.Sublist hints) _ h hg
  intro groups g h hg
  exact ⟨h g (largest?_eq_some hg).1, (h.withdraw g.members).mono List.filter_sublist⟩

theorem Within.subset (h : Within hints groups) {x : Hint}
    (hx : x ∈ groups.flatMap (·.members)) : x ∈ hints := by
  obtain ⟨g, hg, hx⟩ := List.mem_flatMap.mp hx
  exact (h g hg).subset hx

/-- No hint is gathered twice. -/
theorem Within.nodup_gather (h : Within hints groups) (hn : hints.Nodup) (n : Nat) :
    ((Group.gather n groups).flatMap (·.members)).Nodup := by
  induction n generalizing hints groups with
  | zero => exact List.nodup_nil
  | succ n ih =>
    unfold Group.gather
    split
    · exact List.nodup_nil
    · rename_i g hg
      rw [List.flatMap_cons]
      have hw := h.withdraw g.members
      refine ((h g (largest?_eq_some hg).1).nodup hn).append (ih hw (hn.filter _)) ?_
      intro x hxg hx
      exact (mem_untaken.mp ((hw.gather n).subset hx)).2 hxg

/-! The groups of a list of hints, in the two rounds in which they are gathered. -/

def pairs (hints : List Hint) : List Group := gather hints.length (collect GroupKey.doubles hints)

def singles (hints : List Hint) : List Group :=
  gather hints.length
    (withdraw ((pairs hints).flatMap (·.members)) (collect GroupKey.singles hints))

/-- The hints that the first round leaves. -/
def unpaired (hints : List Hint) : List Hint := untaken ((pairs hints).flatMap (·.members)) hints

/-- The hints that some group has claimed. -/
def claimed (hints : List Hint) : List Hint :=
  (sort (pairs hints ++ singles hints)).flatMap (·.members)

theorem claimed_perm (hints : List Hint) : (claimed hints).Perm
    ((pairs hints).flatMap (·.members) ++ (singles hints).flatMap (·.members)) := by
  rw [← List.flatMap_append]
  exact (sortBy_perm _).flatMap_right _

theorem within_pairs (hints : List Hint) : Within hints (pairs hints) :=
  (within_collect GroupKey.doubles hints).gather _

theorem within_singles (hints : List Hint) :
    Within (unpaired hints) (singles hints) :=
  ((within_collect GroupKey.singles hints).withdraw _).gather _

theorem claimed_subset {x : Hint} (hx : x ∈ claimed hints) : x ∈ hints := by
  rcases List.mem_append.mp ((claimed_perm hints).mem_iff.mp hx) with hx | hx
  · exact (within_pairs hints).subset hx
  · exact (mem_untaken.mp ((within_singles hints).subset hx)).1

theorem nodup_claimed (hn : hints.Nodup) : (claimed hints).Nodup := by
  have hp : ((pairs hints).flatMap (·.members)).Nodup :=
    (within_collect GroupKey.doubles hints).nodup_gather hn _
  have hs : ((singles hints).flatMap (·.members)).Nodup :=
    ((within_collect GroupKey.singles hints).withdraw _).nodup_gather (hn.filter _) _
  refine (claimed_perm hints).nodup_iff.mpr (hp.append hs fun x hx hxs => ?_)
  exact (mem_untaken.mp ((within_singles hints).subset hxs)).2 hx

/-- The hints that no group has claimed. -/
def unclaimed (hints : List Hint) : List Hint := untaken (claimed hints) hints

/-- The section of a group. -/
def toSection (g : Group) : Section := ⟨g.key.mask, g.members⟩

end Group

theorem Section.ofHints_eq (hints : List Hint) : Section.ofHints hints =
    (Group.sort (Group.pairs hints ++ Group.singles hints)).map Group.toSection ++
      (if (Group.unclaimed hints).isEmpty then [] else [⟨.all, Group.unclaimed hints⟩]) :=
  rfl

/-- The sections of distinct hints hold each of them once. -/
theorem Section.ofHints_perm {hints : List Hint} (hn : hints.Nodup) :
    ((Section.ofHints hints).flatMap (·.hints)).Perm hints := by
  have hsplit : (Section.ofHints hints).flatMap (·.hints) =
      Group.claimed hints ++ Group.unclaimed hints := by
    rw [ofHints_eq, List.flatMap_append, List.flatMap_map]
    congr 1
    split_ifs with h
    · exact (List.isEmpty_iff.mp h).symm
    · exact List.append_nil _
  have hclaimed := Group.nodup_claimed hn
  have hunclaimed : (Group.unclaimed hints).Nodup := hn.filter _
  have hdisjoint : List.Disjoint (Group.claimed hints) (Group.unclaimed hints) :=
    fun x hx hleft => (Group.mem_untaken.mp hleft).2 hx
  rw [hsplit]
  apply (List.perm_ext_iff_of_nodup (hclaimed.append hunclaimed hdisjoint) hn).mpr
  intro x
  rw [List.mem_append, Group.unclaimed, Group.mem_untaken]
  have hmem : x ∈ Group.claimed hints → x ∈ hints := Group.claimed_subset
  tauto

/-! ## Masks -/

/-- The number of fields that a mask selects. -/
def Mask.width (m : Mask) : Nat := m.ppem.toNat + m.point.toNat + m.shift.toNat

theorem GroupKey.width_of_mem_doubles {h : Hint} {k : GroupKey} (hk : k ∈ doubles h) :
    k.mask.width = 1 := by
  simp only [doubles, List.mem_cons, List.not_mem_nil, or_false] at hk
  rcases hk with rfl | rfl | rfl <;> rfl

theorem GroupKey.width_of_mem_singles {h : Hint} {k : GroupKey} (hk : k ∈ singles h) :
    k.mask.width = 2 := by
  simp only [singles, List.mem_cons, List.not_mem_nil, or_false] at hk
  rcases hk with rfl | rfl | rfl <;> rfl

namespace Group
variable {hints : List Hint} {groups : List Group} {g : Group}

theorem exists_of_mem_collect {keys : Hint → List GroupKey} (hg : g ∈ collect keys hints) :
    ∃ h ∈ hints, g.key ∈ keys h := by
  obtain ⟨key, hkey, rfl⟩ := List.mem_map.mp hg
  exact List.mem_flatMap.mp (List.mem_eraseDups.mp hkey)

/-- Gathering makes up no key. -/
theorem exists_of_mem_gather {n : Nat} (hg : g ∈ gather n groups) :
    ∃ f ∈ groups, f.key = g.key := by
  apply forall_mem_gather (P := fun left => ∀ g ∈ left, ∃ f ∈ groups, f.key = g.key)
    (Q := fun g => ∃ f ∈ groups, f.key = g.key) _ (fun g hg => ⟨g, hg, rfl⟩) hg
  intro left first h hfirst
  refine ⟨h first (largest?_eq_some hfirst).1, fun g hg => ?_⟩
  obtain ⟨f, hf, hkey, -⟩ := mem_withdraw hg
  rw [hkey]
  exact h f hf

theorem width_of_mem_pairs (hg : g ∈ pairs hints) : g.key.mask.width = 1 := by
  obtain ⟨f, hf, hkey⟩ := exists_of_mem_gather hg
  obtain ⟨h, -, hmem⟩ := exists_of_mem_collect hf
  exact hkey ▸ GroupKey.width_of_mem_doubles hmem

theorem width_of_mem_singles (hg : g ∈ singles hints) : g.key.mask.width = 2 := by
  obtain ⟨f, hf, hkey⟩ := exists_of_mem_gather hg
  obtain ⟨e, he, hef, -⟩ := mem_withdraw hf
  obtain ⟨h, -, hmem⟩ := exists_of_mem_collect he
  exact hkey ▸ hef ▸ GroupKey.width_of_mem_singles hmem

end Group

/-- Where the sections of a list of hints come from. -/
theorem Section.mem_ofHints {hints : List Hint} {s : Section} (hs : s ∈ Section.ofHints hints) :
    (∃ g ∈ Group.pairs hints, g.toSection = s) ∨ (∃ g ∈ Group.singles hints, g.toSection = s) ∨
      s = ⟨.all, Group.unclaimed hints⟩ := by
  rw [ofHints_eq] at hs
  cases List.mem_append.mp hs with
  | inl hs =>
    obtain ⟨g, hg, rfl⟩ := List.mem_map.mp hs
    cases List.mem_append.mp ((sortBy_perm _).subset hg) with
    | inl hg => exact .inl ⟨g, hg, rfl⟩
    | inr hg => exact .inr (.inl ⟨g, hg, rfl⟩)
  | inr hs =>
    split_ifs at hs
    · exact absurd hs List.not_mem_nil
    · exact .inr (.inr (List.mem_singleton.mp hs))

/-- Something is left to walk over in every section. -/
theorem Section.mask_ne_empty {hints : List Hint} {s : Section} (hs : s ∈ Section.ofHints hints) :
    s.mask ≠ .empty := by
  intro hempty
  have hwidth : s.mask.width = 0 := hempty ▸ rfl
  rcases mem_ofHints hs with ⟨g, hg, rfl⟩ | ⟨g, hg, rfl⟩ | rfl
  · exact absurd ((Group.width_of_mem_pairs hg).symm.trans hwidth) (by decide)
  · exact absurd ((Group.width_of_mem_singles hg).symm.trans hwidth) (by decide)
  · contradiction

end GlyphHints
