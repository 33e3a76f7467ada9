import GlyphHints.Grouping
import GlyphHints.Machine

/-!
# The plan of an axis

The encoder walks a plan: the hints of one axis in the order of their sections, each section
announced by its mask, and in front of a hint the changes of delta shift and delta base that
it needs. The delta base starts from a home value, rises in steps of 48, falls only back to
that value, and has returned to it when the plan ends.
-/
namespace GlyphHints

inductive Marker where
  | mask (mask : Mask)
  | deltaShift (deltaShift : Nat)
  | deltaBase (deltaBase : Nat)
  | hint (hint : Hint)
deriving DecidableEq

/-- The settings a hint depends on. -/
structure Settings where
  deltaShift : Nat
  deltaBase : Nat
deriving DecidableEq

namespace Settings

/-- The settings that a hint can be emitted under, and the markers that lead to them. -/
def prepare (home : Nat) (s : Settings) (h : Hint) : Except Error (Settings × List Marker) := do
  let (deltaShift, shiftMarkers) ←
    if h.shift.isRepresentable s.deltaShift then pure (s.deltaShift, [])
    else
      let d ← h.shift.fit s.deltaShift
      pure (d, [Marker.deltaShift d])
  let falls := h.ppem < s.deltaBase
  let low := if falls then home else s.deltaBase
  let rises := (h.ppem - low) / deltaBaseSpan
  let baseMarkers := (if falls then [Marker.deltaBase home] else []) ++
    (List.range rises).map fun i => Marker.deltaBase (low + deltaBaseSpan * (i + 1))
  return (⟨deltaShift, low + deltaBaseSpan * rises⟩, shiftMarkers ++ baseMarkers)

end Settings

namespace Plan

structure Draft where
  settings : Settings
  markers : Array Marker

/-- Adds a hint after the changes it needs. -/
def Draft.addHint (home : Nat) (draft : Draft) (h : Hint) : Except Error Draft := do
  let (settings, changes) ← draft.settings.prepare home h
  return ⟨settings, draft.markers ++ changes |>.push (.hint h)⟩

/-- Adds a section after its mask. -/
def Draft.addSection (home : Nat) (draft : Draft) (s : Section) : Except Error Draft :=
  s.hints.foldlM (addHint home) { draft with markers := draft.markers.push (.mask s.mask) }

/-- Plans the hints of one axis, in any order and with repetitions, from a delta shift and a
delta base; the base is returned to at the end. -/
def ofHints (hints : List Hint) (deltaShift home : Nat) : Except Error (List Marker) := do
  let sections := Section.ofHints (Ascending.ofList compare hints)
  let draft ← sections.foldlM (Draft.addSection home) ⟨⟨deltaShift, home⟩, #[]⟩
  let closing := if draft.settings.deltaBase = home then [] else [Marker.deltaBase home]
  return draft.markers.toList ++ closing

/-- The number of 48-ppem steps between two delta bases. -/
def baseSteps (first last : Nat) : Except Error Nat :=
  let distance := (last - first) + (first - last)
  if distance % deltaBaseSpan = 0 then .ok (distance / deltaBaseSpan)
  else .error (.violated .deltaBaseSpacing)

end Plan

end GlyphHints
