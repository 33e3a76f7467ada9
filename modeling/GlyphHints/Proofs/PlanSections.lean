import Mathlib
import GlyphHints.Proofs.Gathering
import GlyphHints.Proofs.Plan

/-!
# The sections of a plan

A plan is a sequence of sections, and all that it says about a hint beside the hint itself is the
mask of its section. In a section the hints ascend and agree in the fields that the mask does not
select. A section of one free field gathers hints that share the other two, a section of two free
fields hints that share the third, and what is left for the last section shares nothing.
-/
namespace GlyphHints

/-! ## Keys of sections -/

/-- The values of a hint in the fields that a mask does not select. -/
def Mask.keyOf (m : Mask) (h : Hint) : GroupKey where
  ppem := if m.ppem then none else some h.ppem
  shift := if m.shift then none else some h.shift
  point := if m.point then none else some h.point

theorem GroupKey.keyOf_mask {k : GroupKey} {h : Hint} (hk : k.admits h = true) :
    k.mask.keyOf h = k := by
  obtain ⟨ppem, shift, point⟩ := k
  simp only [admits, Bool.and_eq_true] at hk
  obtain ⟨⟨hp, hs⟩, hq⟩ := hk
  cases ppem <;> cases shift <;> cases point <;> simp_all [Mask.keyOf, mask]

theorem GroupKey.admits_of_mem_doubles {h : Hint} {k : GroupKey} (hk : k ∈ doubles h) :
    k.admits h = true := by
  simp only [doubles, List.mem_cons, List.not_mem_nil, or_false] at hk
  rcases hk with rfl | rfl | rfl <;> simp [admits]

theorem GroupKey.admits_of_mem_singles {h : Hint} {k : GroupKey} (hk : k ∈ singles h) :
    k.admits h = true := by
  simp only [singles, List.mem_cons, List.not_mem_nil, or_false] at hk
  rcases hk with rfl | rfl | rfl <;> simp [admits]

/-- The hints of a section have these values in the fields that its mask does not select. -/
structure Section.HasKey (s : Section) (k : GroupKey) : Prop where
  nonempty : s.hints ≠ []
  keyOf : ∀ h ∈ s.hints, s.mask.keyOf h = k

/-- In how many of ppem, shift and point two hints agree. -/
def Hint.agreements (a b : Hint) : Nat :=
  (decide (a.ppem = b.ppem)).toNat + (decide (a.shift = b.shift)).toNat +
    (decide (a.point = b.point)).toNat

/-! ## The groups of a list of hints -/

namespace Group
variable {hints : List Hint} {g : Group} {a b : Hint}

theorem classifies_singles (hints : List Hint) : Classifies GroupKey.singles
    (unpaired hints)
    (withdraw ((pairs hints).flatMap (·.members)) (collect GroupKey.singles hints)) :=
  (classifies_collect GroupKey.singles hints).withdraw _

theorem of_mem_groups (hg : g ∈ pairs hints ++ singles hints) :
    2 ≤ g.members.length ∧ ∀ x ∈ g.members, g.key.admits x = true :=
  (List.mem_append.mp hg).elim (classifies_collect GroupKey.doubles hints).of_mem_gather
    (classifies_singles hints).of_mem_gather

theorem hasKey_toSection (hg : g ∈ pairs hints ++ singles hints) :
    g.toSection.HasKey g.key := by
  obtain ⟨hlength, hadmits⟩ := of_mem_groups hg
  constructor
  · exact List.ne_nil_of_length_pos (Nat.lt_of_lt_of_le Nat.two_pos hlength)
  · exact fun x hx => GroupKey.keyOf_mask (hadmits x hx)

theorem mask_ne_all (hg : g ∈ pairs hints ++ singles hints) : g.key.mask ≠ .all := by
  intro hall
  have hwidth : g.key.mask.width = 3 := hall ▸ rfl
  cases List.mem_append.mp hg with
  | inl hg => exact absurd (hwidth.symm.trans (width_of_mem_pairs hg)) (by decide)
  | inr hg => exact absurd (hwidth.symm.trans (width_of_mem_singles hg)) (by decide)

/-- No key is gathered twice: those of the two rounds differ in how much they leave free. -/
theorem nodup_groups_keys (hints : List Hint) :
    ((pairs hints ++ singles hints).map (·.key)).Nodup := by
  rw [List.map_append]
  apply List.Nodup.append
  · exact (classifies_collect GroupKey.doubles hints).nodup_keys
  · exact (classifies_singles hints).nodup_keys
  · intro k hpair hsingle
    obtain ⟨f, hf, rfl⟩ := List.mem_map.mp hpair
    obtain ⟨g, hg, hkey⟩ := List.mem_map.mp hsingle
    have hwidth := width_of_mem_singles hg
    rw [hkey, width_of_mem_pairs hf] at hwidth
    contradiction

theorem ascending_groups_keys (hints : List Hint) :
    Ascending compare ((sort (pairs hints ++ singles hints)).map (·.key)) := by
  have hperm : (sort (pairs hints ++ singles hints)).Perm (pairs hints ++ singles hints) :=
    sortBy_perm _
  have hnodup : ((sort (pairs hints ++ singles hints)).map key).Nodup :=
    (hperm.map key).nodup_iff.mpr (nodup_groups_keys hints)
  have hsorted : ((sort (pairs hints ++ singles hints)).map key).Pairwise
      fun j k => (compare j k).isLE := by
    rw [List.pairwise_map]
    exact @sortBy_pairwise Group (compareVia compare key) inferInstance _
  exact .of_isLE hsorted hnodup

/-! ## What hints of different groups share -/

theorem agreements_le_one (h : Apart GroupKey.doubles hints) (ha : a ∈ hints) (hb : b ∈ hints)
    (hne : a ≠ b) : a.agreements b ≤ 1 := by
  have happart : ∀ k ∈ GroupKey.doubles a, k.admits b ≠ true := fun k hk hadmits =>
    hne (h a ha b hb k hk (GroupKey.admits_of_mem_doubles hk) hadmits)
  simp only [GroupKey.doubles, List.forall_mem_cons, GroupKey.admits] at happart
  unfold Hint.agreements
  by_cases hp : a.ppem = b.ppem <;> by_cases hs : a.shift = b.shift <;>
    by_cases hq : a.point = b.point <;> simp_all

theorem agreements_eq_zero (h : Apart GroupKey.singles hints) (ha : a ∈ hints) (hb : b ∈ hints)
    (hne : a ≠ b) : a.agreements b = 0 := by
  have happart : ∀ k ∈ GroupKey.singles a, k.admits b ≠ true := fun k hk hadmits =>
    hne (h a ha b hb k hk (GroupKey.admits_of_mem_singles hk) hadmits)
  simp only [GroupKey.singles, List.forall_mem_cons, GroupKey.admits] at happart
  unfold Hint.agreements
  simp_all

theorem apart_unpaired (hints : List Hint) : Apart GroupKey.doubles (unpaired hints) :=
  (classifies_collect GroupKey.doubles hints).apart_gather le_rfl

theorem mem_unclaimed {x : Hint} (hx : x ∈ unclaimed hints) :
    x ∈ untaken ((singles hints).flatMap (·.members)) (unpaired hints) := by
  obtain ⟨hmem, hfree⟩ := mem_untaken.mp hx
  have hparts := mt (claimed_perm hints).mem_iff.mpr hfree
  rw [List.mem_append, not_or] at hparts
  exact mem_untaken.mpr ⟨mem_untaken.mpr ⟨hmem, hparts.1⟩, hparts.2⟩

theorem apart_unclaimed (hints : List Hint) : Apart GroupKey.singles (unclaimed hints) := by
  have hfewer : (unpaired hints).length ≤ hints.length := List.length_filter_le _ _
  have hleft := (classifies_singles hints).apart_gather hfewer
  exact fun a ha b hb => hleft a (mem_unclaimed ha) b (mem_unclaimed hb)

end Group

/-! ## The sections of a list of hints -/

namespace Section
variable {hints : List Hint} {s t : Section} {a b : Hint}

theorem sublist (hs : s ∈ ofHints hints) : s.hints.Sublist hints := by
  rcases mem_ofHints hs with ⟨g, hg, rfl⟩ | ⟨g, hg, rfl⟩ | rfl
  · exact Group.within_pairs hints g hg
  · exact (Group.within_singles hints g hg).trans List.filter_sublist
  · exact List.filter_sublist

/-- A section that is not the last one comes of a group. -/
theorem exists_group (hs : s ∈ ofHints hints) : s = ⟨.all, Group.unclaimed hints⟩ ∨
    ∃ g ∈ Group.pairs hints ++ Group.singles hints, g.toSection = s := by
  rcases mem_ofHints hs with ⟨g, hg, rfl⟩ | ⟨g, hg, rfl⟩ | rfl
  · exact .inr ⟨g, List.mem_append_left _ hg, rfl⟩
  · exact .inr ⟨g, List.mem_append_right _ hg, rfl⟩
  · exact .inl rfl

theorem keyOf_eq (hs : s ∈ ofHints hints) (ha : a ∈ s.hints) (hb : b ∈ s.hints) :
    s.mask.keyOf a = s.mask.keyOf b := by
  cases exists_group hs with
  | inl hs =>
    subst hs
    rfl
  | inr hs =>
    obtain ⟨g, hg, rfl⟩ := hs
    have hkey := Group.hasKey_toSection hg
    exact (hkey.keyOf a ha).trans (hkey.keyOf b hb).symm

theorem two_le_length (hs : s ∈ ofHints hints) (hmask : s.mask ≠ .all) : 2 ≤ s.hints.length := by
  cases exists_group hs with
  | inl hs => exact absurd (congrArg mask hs) hmask
  | inr hs =>
    obtain ⟨g, hg, rfl⟩ := hs
    exact (Group.of_mem_groups hg).1

theorem mask_ne_all_of_mem_map
    (hs : s ∈ (Group.sort (Group.pairs hints ++ Group.singles hints)).map Group.toSection) :
    s.mask ≠ .all := by
  obtain ⟨g, hg, rfl⟩ := List.mem_map.mp hs
  exact Group.mask_ne_all ((sortBy_perm _).subset hg)

theorem mask_ne_all_of_mem_dropLast (hs : s ∈ (ofHints hints).dropLast) : s.mask ≠ .all := by
  rw [ofHints_eq] at hs
  split_ifs at hs
  · rw [List.append_nil] at hs
    exact mask_ne_all_of_mem_map (List.dropLast_subset _ hs)
  · rw [List.dropLast_concat] at hs
    exact mask_ne_all_of_mem_map hs

theorem mem_unpaired (hs : s ∈ ofHints hints) (hwidth : s.mask.width ≠ 1) (ha : a ∈ s.hints) :
    a ∈ Group.unpaired hints := by
  rcases mem_ofHints hs with ⟨g, hg, rfl⟩ | ⟨g, hg, rfl⟩ | rfl
  · exact absurd (Group.width_of_mem_pairs hg) hwidth
  · exact (Group.within_singles hints g hg).subset ha
  · exact (Group.mem_untaken.mp (Group.mem_unclaimed ha)).1

theorem mem_unclaimed (hs : s ∈ ofHints hints) (hmask : s.mask = .all) (ha : a ∈ s.hints) :
    a ∈ Group.unclaimed hints := by
  cases exists_group hs with
  | inl hs =>
    subst hs
    exact ha
  | inr hs =>
    obtain ⟨g, hg, rfl⟩ := hs
    exact absurd hmask (Group.mask_ne_all hg)

theorem takeWhile_ofHints (hints : List Hint) : (ofHints hints).takeWhile (·.mask != .all) =
    (Group.sort (Group.pairs hints ++ Group.singles hints)).map Group.toSection := by
  rw [ofHints_eq, List.takeWhile_append_of_pos]
  · split_ifs <;> simp
  · exact fun s hs => bne_iff_ne.mpr (mask_ne_all_of_mem_map hs)

theorem hasKey_takeWhile (hints : List Hint) : List.Forall₂ HasKey
    ((ofHints hints).takeWhile (·.mask != .all))
    ((Group.sort (Group.pairs hints ++ Group.singles hints)).map (·.key)) := by
  rw [takeWhile_ofHints, List.forall₂_map_left_iff, List.forall₂_map_right_iff,
    List.forall₂_same]
  exact fun g hg => Group.hasKey_toSection ((sortBy_perm _).subset hg)

/-- A section whose hints are as its mask says. -/
structure Coherent (s : Section) : Prop where
  agree : ∀ a ∈ s.hints, ∀ b ∈ s.hints, s.mask.keyOf a = s.mask.keyOf b
  ascending : Ascending compare s.hints
  shared : s.mask ≠ .all → 2 ≤ s.hints.length

theorem coherent_of_mem (hs : s ∈ ofHints hints) (h : Ascending compare hints) : s.Coherent where
  agree _ ha _ hb := keyOf_eq hs ha hb
  ascending := h.sublist (sublist hs)
  shared := two_le_length hs

end Section

/-! ## The sections of a plan -/

namespace Plan
variable {list other : List Hint} {d home : Nat} {plan : List Marker}

theorem ofHints_congr (h : ∀ x, x ∈ other ↔ x ∈ list) :
    ofHints other d home = ofHints list d home := by
  have hset : Ascending.ofList compare other = Ascending.ofList compare list := by
    apply Ascending.eq_of_mem_iff (Ascending.ascending_ofList other)
    · exact Ascending.ascending_ofList list
    · intro x
      rw [Ascending.mem_ofList, Ascending.mem_ofList]
      exact h x
  unfold ofHints
  rw [hset]

/-- A plan holds the hints that it was made of, each once, and depends on nothing but which they
are. A mask is in front of them, and each section is as its mask says. -/
theorem ofHints_faithful (h : ofHints list d home = .ok plan) :
    (hints plan).Nodup ∧ (∀ x, x ∈ hints plan ↔ x ∈ list) ∧
      (∀ other, (∀ x, x ∈ other ↔ x ∈ list) → ofHints other d home = .ok plan) ∧
      (∀ before x after, plan = before ++ .hint x :: after → ∃ mask, .mask mask ∈ before) ∧
      (∀ s ∈ sections plan, s.Coherent) ∧ ∀ s ∈ (sections plan).dropLast, s.mask ≠ .all := by
  have hascending : Ascending compare (Ascending.ofList compare list) :=
    Ascending.ascending_ofList list
  have hperm := hints_perm h
  obtain ⟨hleading, hsections⟩ := sections_ofHints h
  refine ⟨?_, ?_, ?_, ?_, ?_, ?_⟩
  · exact hperm.nodup_iff.mpr hascending.nodup
  · intro x
    rw [hperm.mem_iff, Ascending.mem_ofList]
  · intro other hother
    rw [ofHints_congr hother]
    exact h
  · intro before x after hplan
    rw [hplan] at hleading
    exact exists_mask_of_leading hleading
  · intro s hs
    rw [hsections] at hs
    exact Section.coherent_of_mem hs hascending
  · intro s hs
    rw [hsections] at hs
    exact Section.mask_ne_all_of_mem_dropLast hs

/-- Hints that share two coordinates, one or none, and one of them twice. -/
def scattered : List Hint :=
  [⟨70, .pixels 3, none, .deltaG⟩, ⟨20, .pixels (1 / 2), some 6, .deltaS⟩,
    ⟨14, .pixels (1 / 8), some 3, .deltaP⟩, ⟨20, .pixels (1 / 4), some 5, .deltaL⟩,
    ⟨12, .pixels (1 / 8), some 3, .deltaP⟩, ⟨14, .pixels (1 / 8), some 3, .deltaP⟩]

def scatteredPlan : List Marker :=
  [.mask ⟨true, false, false⟩, .hint ⟨12, .pixels (1 / 8), some 3, .deltaP⟩,
    .hint ⟨14, .pixels (1 / 8), some 3, .deltaP⟩,
    .mask ⟨false, true, true⟩, .hint ⟨20, .pixels (1 / 4), some 5, .deltaL⟩,
    .hint ⟨20, .pixels (1 / 2), some 6, .deltaS⟩,
    .mask .all, .deltaShift 1, .deltaBase 57, .hint ⟨70, .pixels 3, none, .deltaG⟩,
    .deltaBase 9]

theorem ofHints_scattered : ofHints scattered 3 9 = .ok scatteredPlan := by cbv

theorem ofHints_faithful_scattered :
    ofHints scattered 3 9 = .ok scatteredPlan ∧ (hints scatteredPlan).Nodup ∧
      (∀ x, x ∈ hints scatteredPlan ↔ x ∈ scattered) ∧
      ofHints scattered.reverse 3 9 = .ok scatteredPlan ∧
      (∀ before x after, scatteredPlan = before ++ .hint x :: after →
        ∃ mask, .mask mask ∈ before) ∧
      (∀ s ∈ sections scatteredPlan, s.Coherent) ∧
      ∀ s ∈ (sections scatteredPlan).dropLast, s.mask ≠ .all := by
  obtain ⟨hnodup, hmem, hset, hrest⟩ := ofHints_faithful ofHints_scattered
  exact ⟨ofHints_scattered, hnodup, hmem, hset _ fun x => List.mem_reverse, hrest⟩

/-- Hints of sections with more than one free coordinate agree on one at most, those of the last
section on none. The sections before that one come in the order of their keys, in which a free
coordinate is below every fixed one. -/
theorem ofHints_exhaustive (h : ofHints list d home = .ok plan) :
    (∀ s ∈ sections plan, ∀ t ∈ sections plan, s.mask.width ≠ 1 → t.mask.width ≠ 1 →
      ∀ a ∈ s.hints, ∀ b ∈ t.hints, a ≠ b → a.agreements b ≤ 1) ∧
      (∀ s ∈ sections plan, ∀ t ∈ sections plan, s.mask = .all → t.mask = .all →
        ∀ a ∈ s.hints, ∀ b ∈ t.hints, a ≠ b → a.agreements b = 0) ∧
      ∃ keys, List.Forall₂ Section.HasKey
        ((sections plan).takeWhile (·.mask != .all)) keys ∧ Ascending compare keys ∧
          keys.Nodup := by
  rw [(sections_ofHints h).2]
  refine ⟨?_, ?_, ?_⟩
  · intro s hs t ht hswidth htwidth a ha b hb hne
    have ha := Section.mem_unpaired hs hswidth ha
    have hb := Section.mem_unpaired ht htwidth hb
    exact Group.agreements_le_one (Group.apart_unpaired _) ha hb hne
  · intro s hs t ht hsmask htmask a ha b hb hne
    have ha := Section.mem_unclaimed hs hsmask ha
    have hb := Section.mem_unclaimed ht htmask hb
    exact Group.agreements_eq_zero (Group.apart_unclaimed _) ha hb hne
  · have hkeys := Group.ascending_groups_keys (Ascending.ofList compare list)
    exact ⟨_, Section.hasKey_takeWhile _, hkeys, hkeys.nodup⟩

theorem ofHints_exhaustive_scattered :
    ofHints scattered 3 9 = .ok scatteredPlan ∧
      (∀ s ∈ sections scatteredPlan, ∀ t ∈ sections scatteredPlan, s.mask.width ≠ 1 →
        t.mask.width ≠ 1 → ∀ a ∈ s.hints, ∀ b ∈ t.hints, a ≠ b → a.agreements b ≤ 1) ∧
      (∀ s ∈ sections scatteredPlan, ∀ t ∈ sections scatteredPlan, s.mask = .all →
        t.mask = .all → ∀ a ∈ s.hints, ∀ b ∈ t.hints, a ≠ b → a.agreements b = 0) ∧
      ∃ keys, List.Forall₂ Section.HasKey
        ((sections scatteredPlan).takeWhile (·.mask != .all)) keys ∧ Ascending compare keys ∧
          keys.Nodup :=
  ⟨ofHints_scattered, ofHints_exhaustive ofHints_scattered⟩

end Plan
end GlyphHints
