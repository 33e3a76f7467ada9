import GlyphHints.Hint
import GlyphHints.Instruction

/-!
# Grouping hints that share coordinates

Hints of one axis that agree on two of ppem, shift and point are gathered first, the largest
such group before the others, and of equally large ones the one whose key comes up first in
the hints. What is left is gathered in the same way by a single coordinate. A group is
emitted under the mask of its free coordinates, so that auto-increment walks from each hint
to the next. Hints that end in no group share a last section under the full mask.
-/
namespace GlyphHints

/-- The coordinates a group has in common. `none` leaves a coordinate free, and a point of
`some none` is the common lack of a point. -/
structure GroupKey where
  ppem : Option Nat
  shift : Option Shift
  point : Option (Option Nat)
deriving DecidableEq

namespace GroupKey

/-- The order in which groups are emitted: by ppem, shift and point, free ones first. -/
instance : Ord GroupKey where
  compare := compareLex (compareOn ppem) (compareLex (compareOn shift) (compareOn point))

instance : Std.TransOrd GroupKey :=
  inferInstanceAs (Std.TransCmp
    (compareLex (compareOn ppem) (compareLex (compareOn shift) (compareOn point))))

instance : Std.LawfulEqOrd GroupKey where
  eq_of_compare {a b} h := by
    obtain ⟨hp, h⟩ := compareLex_eq_eq.mp h
    obtain ⟨hs, hq⟩ := compareLex_eq_eq.mp h
    have hp : a.ppem = b.ppem := Std.LawfulEqOrd.eq_of_compare hp
    have hs : a.shift = b.shift := Std.LawfulEqOrd.eq_of_compare hs
    have hq : a.point = b.point := Std.LawfulEqOrd.eq_of_compare hq
    cases a; cases b; simp_all

/-- The mask that selects the free coordinates. -/
def mask (k : GroupKey) : Mask := ⟨k.ppem.isNone, k.point.isNone, k.shift.isNone⟩

def admits (k : GroupKey) (h : Hint) : Bool :=
  k.ppem.all (· == h.ppem) && k.shift.all (· == h.shift) && k.point.all (· == h.point)

/-- The keys that fix two coordinates of a hint. -/
def doubles (h : Hint) : List GroupKey :=
  [⟨some h.ppem, some h.shift, none⟩, ⟨some h.ppem, none, some h.point⟩,
    ⟨none, some h.shift, some h.point⟩]

/-- The keys that fix one coordinate of a hint. -/
def singles (h : Hint) : List GroupKey :=
  [⟨some h.ppem, none, none⟩, ⟨none, none, some h.point⟩, ⟨none, some h.shift, none⟩]

end GroupKey

structure Group where
  key : GroupKey
  members : List Hint
deriving DecidableEq

namespace Group

/-- All hints of each key, the keys in the order in which the hints bring them up. -/
def collect (keys : Hint → List GroupKey) (hints : List Hint) : List Group :=
  (hints.flatMap keys).eraseDups.map fun key => ⟨key, hints.filter key.admits⟩

/-- The first of the largest groups, if it has at least two members. -/
def largest? (groups : List Group) : Option Group :=
  groups.foldl (fun best g =>
    let size := g.members.length
    if 2 ≤ size ∧ ∀ b ∈ best, b.members.length < size then some g else best) none

/-- Takes hints out of every group. Groups that could no longer be gathered are dropped. -/
def withdraw (taken : List Hint) (groups : List Group) : List Group :=
  (groups.map fun g => { g with members := g.members.filter (!taken.contains ·) }).filter
    (fun g => 2 ≤ g.members.length)

/-- Gathers groups until none has two members. Each takes two hints or more, so the number
of hints bounds the number of groups. -/
def gather : Nat → List Group → List Group
  | 0, _ => []
  | fuel + 1, groups =>
    match largest? groups with
    | none => []
    | some g => g :: gather fuel (withdraw g.members groups)

def sort (groups : List Group) : List Group := sortBy (compareVia compare key) groups

end Group

structure Section where
  mask : Mask
  hints : List Hint
deriving DecidableEq

/-- The sections of a list of distinct hints. -/
def Section.ofHints (hints : List Hint) : List Section :=
  let pairs := Group.gather hints.length (Group.collect GroupKey.doubles hints)
  let rest := Group.withdraw (pairs.flatMap (·.members)) (Group.collect GroupKey.singles hints)
  let groups := Group.sort (pairs ++ Group.gather hints.length rest)
  let grouped := groups.flatMap (·.members)
  let left := hints.filter (!grouped.contains ·)
  groups.map (fun g => ⟨g.key.mask, g.members⟩) ++
    (if left.isEmpty then [] else [⟨.all, left⟩])

end GlyphHints
