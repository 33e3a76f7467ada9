import GlyphHints.PhaseMap
import GlyphHints.Tally

/-!
# Phase maps by level

The hints of a phase can be kept on levels: an axis has ppems, a ppem has shifts, and at a shift
there is a set of targets, which are kinds with their points. A level is made when the first hint
is put on it. A hint that may not be recorded is refused before any level is touched, and then the
levels stay what they were.
-/
namespace GlyphHints

instance : Ord Axis where
  compare := compareOn Axis.index

instance : Std.TransOrd Axis := inferInstanceAs (Std.TransCmp (compareOn Axis.index))

instance : Std.LawfulEqOrd Axis where
  eq_of_compare h := Axis.index_injective (Std.LawfulEqOrd.eq_of_compare h)

/-- What a hint moves at its axis, ppem and shift. -/
structure Target where
  kind : DeltaKind
  point : Option Nat
deriving DecidableEq

namespace Target

/-- By kind and point (none first). -/
instance : Ord Target where
  compare := compareLex (compareOn fun t => t.kind.index) (compareOn point)

instance : Std.TransOrd Target :=
  inferInstanceAs (Std.TransCmp (compareLex (compareOn fun t => t.kind.index) (compareOn point)))

instance : Std.LawfulEqOrd Target where
  eq_of_compare {a b} h := by
    obtain ⟨hk, hp⟩ := compareLex_eq_eq.mp h
    have hk : a.kind = b.kind := DeltaKind.index_injective (Std.LawfulEqOrd.eq_of_compare hk)
    have hp : a.point = b.point := Std.LawfulEqOrd.eq_of_compare hp
    cases a; cases b; simp_all

end Target

def Hint.target (h : Hint) : Target := ⟨h.kind, h.point⟩

/-- The least key of a table. -/
def Table.firstKey? {κ β : Type} [Ord κ] (t : Table κ β) : Option κ := t.entries.head?.map (·.1)

abbrev TargetSet : Type := Table Target Unit

abbrev ShiftLevels : Type := Table Shift TargetSet

abbrev PpemLevels : Type := Table Nat ShiftLevels

structure PhaseLevels where
  axes : Table Axis PpemLevels

namespace PhaseLevels

def empty : PhaseLevels := ⟨.empty⟩

instance : Inhabited PhaseLevels := ⟨empty⟩

def isEmpty (m : PhaseLevels) : Bool := m.axes.entries.isEmpty

/-- The shifts of each ppem of each axis. -/
def shiftLevels (m : PhaseLevels) : List ShiftLevels :=
  m.axes.entries.flatMap fun a => a.2.entries.map (·.2)

def size (m : PhaseLevels) : Nat :=
  (m.shiftLevels.flatMap fun shifts => shifts.entries.map (·.2)).foldl
    (fun n targets => n + targets.entries.length) 0

def contains (m : PhaseLevels) (axis : Axis) (h : Hint) : Bool :=
  ((((m.axes.get? axis).bind (·.get? h.ppem)).bind (·.get? h.shift)).bind
    (·.get? h.target)).isSome

/-- Puts a hint on its levels and makes those that are missing. -/
def place (m : PhaseLevels) (axis : Axis) (h : Hint) : PhaseLevels where
  axes := m.axes.update axis .empty fun ppems =>
    ppems.update h.ppem .empty fun shifts =>
      shifts.update h.shift .empty fun targets => targets.update h.target () id

/-- Records a hint: whether it is new or why it is refused, and the levels afterwards. -/
def insert (m : PhaseLevels) (axis : Axis) (h : Hint) : Except Error Bool × PhaseLevels :=
  match h.check with
  | .error e => (.error e, m)
  | .ok () => (.ok (!m.contains axis h), m.place axis h)

/-- The levels after a number of hints were to be recorded. -/
def ofCalls (calls : List (Axis × Hint)) : PhaseLevels :=
  calls.foldl (fun m e => (m.insert e.1 e.2).2) empty

def minPpem? (m : PhaseLevels) : Option Nat :=
  leastBy compare ((m.axes.entries.map (·.2)).filterMap Table.firstKey?)

def minShift? (m : PhaseLevels) : Option Shift :=
  leastBy compare (m.shiftLevels.filterMap Table.firstKey?)

/-- The smallest point; hints without one do not count. -/
def minPoint? (m : PhaseLevels) : Option Nat :=
  leastBy compare (m.shiftLevels.flatMap fun shifts => shifts.entries.flatMap fun s =>
    s.2.entries.filterMap (·.1.point))

/-- The hints of an axis, ascending by ppem, shift, kind and point. -/
def hintsOf (ppems : PpemLevels) : List Hint :=
  ppems.entries.flatMap fun p => p.2.entries.flatMap fun s =>
    s.2.entries.map fun t => ⟨p.1, s.1, t.1.point, t.1.kind⟩

/-- The hints of an axis, in the order of planning. -/
def flatten (ppems : PpemLevels) : List Hint := sortBy compare (hintsOf ppems)

end PhaseLevels

namespace PhaseMap

/-- Records a hint: whether it is new or why it is refused, and the map afterwards. -/
def record (m : PhaseMap) (axis : Axis) (h : Hint) : Except Error Bool × PhaseMap :=
  match m.insert axis h with
  | .error e => (.error e, m)
  | .ok larger => (.ok (!m.contains axis h), larger)

/-- The map after a number of hints were to be recorded. -/
def ofCalls (calls : List (Axis × Hint)) : PhaseMap :=
  calls.foldl (fun m e => (m.record e.1 e.2).2) empty

end PhaseMap

end GlyphHints
