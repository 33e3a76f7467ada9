import GlyphHints.Error
import GlyphHints.Hint

/-!
# Phase maps

The hints of a glyph come in two phases, those applied before RTGAH and those applied after
it. A phase map is the set of the hints of one phase over both axes, kept ascending by axis,
ppem, shift, kind and point, so that two maps with the same hints are equal. Only a usable
shift and a point that matches the kind get in. A map is shown with one line for each axis, ppem
and shift that it has hints at, and all kinds and points of that spot on the line.
-/
namespace GlyphHints

/-- The order of recording: by axis, ppem, shift, kind and point (none first). -/
def entryOrder : Axis × Hint → Axis × Hint → Ordering :=
  compareLex (compareOn fun e => e.1.index) (compareLex (compareOn fun e => e.2.ppem)
    (compareLex (compareOn fun e => e.2.shift)
      (compareLex (compareOn fun e => e.2.kind.index) (compareOn fun e => e.2.point))))

instance : Std.TransCmp entryOrder :=
  inferInstanceAs (Std.TransCmp (compareLex (compareOn _) (compareLex (compareOn _)
    (compareLex (compareOn _) (compareLex (compareOn _) (compareOn _))))))

instance : Std.LawfulEqCmp entryOrder where
  compare_self := Std.ReflCmp.compare_self
  eq_of_compare {a b} h := by
    obtain ⟨ha, h⟩ := compareLex_eq_eq.mp h
    obtain ⟨hp, h⟩ := compareLex_eq_eq.mp h
    obtain ⟨hs, h⟩ := compareLex_eq_eq.mp h
    obtain ⟨hk, hq⟩ := compareLex_eq_eq.mp h
    have ha : a.1 = b.1 := Axis.index_injective (Std.LawfulEqOrd.eq_of_compare ha)
    have hp : a.2.ppem = b.2.ppem := Std.LawfulEqOrd.eq_of_compare hp
    have hs : a.2.shift = b.2.shift := Std.LawfulEqOrd.eq_of_compare hs
    have hk : a.2.kind = b.2.kind :=
      DeltaKind.index_injective (Std.LawfulEqOrd.eq_of_compare hk)
    have hq : a.2.point = b.2.point := Std.LawfulEqOrd.eq_of_compare hq
    rcases a with ⟨_, _, _, _, _⟩
    rcases b with ⟨_, _, _, _, _⟩
    simp_all

/-- The least element of a list under an order, the first of equal ones. -/
def leastBy {α : Type} (cmp : α → α → Ordering) : List α → Option α
  | [] => none
  | a :: l => some (l.foldl (fun least b => if cmp b least = .lt then b else least) a)

/-- Whether a hint may be recorded. -/
def Hint.isValid (h : Hint) : Bool := h.shift.isUsable && h.kind.fits h.point

/-- The cause for which a hint may not be recorded; the shift is looked at first. -/
def Hint.check (h : Hint) : Except Error Unit :=
  if !h.shift.isUsable then .error (.violated .usableShift)
  else if !h.kind.fits h.point then .error (.violated .pointPresence)
  else .ok ()

theorem Hint.isValid_of_check {h : Hint} (hc : h.check = .ok ()) : h.isValid = true := by
  unfold Hint.check at hc
  unfold Hint.isValid
  split at hc
  · contradiction
  · split at hc
    · contradiction
    · simp_all

@[ext] structure PhaseMap where
  entries : List (Axis × Hint)
  ascending : Ascending entryOrder entries
  valid : ∀ e ∈ entries, e.2.isValid = true

namespace PhaseMap

instance : DecidableEq PhaseMap := fun a b =>
  if h : a.entries = b.entries then isTrue (PhaseMap.ext h)
  else isFalse fun hab => h (congrArg entries hab)

def empty : PhaseMap := ⟨[], Ascending.nil, by simp⟩

instance : Inhabited PhaseMap := ⟨empty⟩

def isEmpty (m : PhaseMap) : Bool := m.entries.isEmpty

def size (m : PhaseMap) : Nat := m.entries.length

def contains (m : PhaseMap) (axis : Axis) (h : Hint) : Bool := decide ((axis, h) ∈ m.entries)

def add (m : PhaseMap) (axis : Axis) (h : Hint) (hv : h.isValid = true) : PhaseMap where
  entries := Ascending.insert entryOrder (axis, h) m.entries
  ascending := Ascending.ascending_insert m.ascending
  valid e he := by
    rcases Ascending.mem_insert.mp he with rfl | he
    · exact hv
    · exact m.valid e he

def insert (m : PhaseMap) (axis : Axis) (h : Hint) : Except Error PhaseMap :=
  match hc : h.check with
  | .error e => .error e
  | .ok () => .ok (m.add axis h (Hint.isValid_of_check hc))

def insertAll (m : PhaseMap) (entries : List (Axis × Hint)) : Except Error PhaseMap :=
  entries.foldlM (fun m e => m.insert e.1 e.2) m

/-- The hints of one axis, in the order of planning. -/
def flatten (m : PhaseMap) (axis : Axis) : List Hint :=
  Ascending.ofList compare ((m.entries.filter fun e => e.1 = axis).map (·.2))

/-- The axes that have hints, x before y. -/
def axes (m : PhaseMap) : List Axis :=
  [Axis.x, Axis.y].filter fun axis => m.entries.any fun e => e.1 = axis

def minPpem? (m : PhaseMap) : Option Nat := leastBy compare (m.entries.map (·.2.ppem))

def minShift? (m : PhaseMap) : Option Shift := leastBy compare (m.entries.map (·.2.shift))

/-- The smallest point; hints without one do not count. -/
def minPoint? (m : PhaseMap) : Option Nat := leastBy compare (m.entries.filterMap (·.2.point))

end PhaseMap

/-! ## Texts -/

def Hint.targetText (h : Hint) : String :=
  match h.point with
  | some point => h.kind.name ++ " " ++ toString point
  | none => h.kind.name

namespace PhaseMap

/-- Whether two recorded hints share their axis, ppem and shift. -/
def sameSpot (a b : Axis × Hint) : Bool :=
  a.1 == b.1 && a.2.ppem == b.2.ppem && a.2.shift == b.2.shift

/-- The line of a spot, given its first hint and all of them. -/
def spotLine (first : Axis × Hint) (hints : List (Axis × Hint)) : String :=
  "  " ++ first.1.name ++ " ppem " ++ toString first.2.ppem ++ " shift " ++
    first.2.shift.text .decimal ++ ": " ++
    String.intercalate ", " (hints.map (·.2.targetText)) ++ "\n"

/-- The lines of a phase map. Its order puts the hints of a spot side by side. -/
def text (m : PhaseMap) : String :=
  if m.isEmpty then "  (empty)\n"
  else String.join ((m.entries.splitBy sameSpot).map fun spot =>
    match spot with
    | [] => ""
    | first :: rest => spotLine first (first :: rest))

end PhaseMap

end GlyphHints
