import GlyphHints.Shift

/-!
# Delta hints

A delta hint moves a point along an axis by a shift when a glyph is drawn at one size, the
ppem. Within one axis a hint is its ppem, shift, point and kind, and hints are planned in
ascending order of these four.
-/
namespace GlyphHints

inductive Axis where
  | x
  | y
deriving DecidableEq, Repr

namespace Axis

def index : Axis → Nat
  | x => 0
  | y => 1

def isY : Axis → Bool
  | x => false
  | y => true

def name : Axis → String
  | x => "x"
  | y => "y"

theorem index_injective {a b : Axis} (h : a.index = b.index) : a = b := by
  cases a <;> cases b <;> first | rfl | simp [index] at h

end Axis

inductive DeltaKind where
  | deltaP
  | deltaK
  | deltaL
  | deltaS
  | deltaG
  | strokeDelta
deriving DecidableEq, Repr

namespace DeltaKind

def all : List DeltaKind := [deltaP, deltaK, deltaL, deltaS, deltaG, strokeDelta]

def index : DeltaKind → Nat
  | deltaP => 0
  | deltaK => 1
  | deltaL => 2
  | deltaS => 3
  | deltaG => 4
  | strokeDelta => 5

theorem index_injective {a b : DeltaKind} (h : a.index = b.index) : a = b := by
  cases a <;> cases b <;> first | rfl | simp [index] at h

/-- The nybble that emits a hint of this kind, 8 to 13. -/
def opcode (kind : DeltaKind) : Nat := 8 + kind.index

def ofOpcode? (opcode : Nat) : Option DeltaKind :=
  all.find? (fun kind => kind.opcode == opcode)

def name : DeltaKind → String
  | deltaP => "DELTAP"
  | deltaK => "DELTAK"
  | deltaL => "DELTAL"
  | deltaS => "DELTAS"
  | deltaG => "DELTAG"
  | strokeDelta => "STROKEDELTA"

/-- DELTAG is global; every other kind applies to a point. -/
def takesPoint : DeltaKind → Bool
  | deltaG => false
  | _ => true

/-- Whether a point is given exactly if the kind takes one. -/
def fits (kind : DeltaKind) (point : Option Nat) : Bool := kind.takesPoint == point.isSome

end DeltaKind

structure Hint where
  ppem : Nat
  shift : Shift
  point : Option Nat
  kind : DeltaKind
deriving DecidableEq

namespace Hint

/-- A hint whose shift, if zero, is the positive zero. -/
def of (ppem : Nat) (shift : Shift) (point : Option Nat) (kind : DeltaKind) : Hint :=
  ⟨ppem, shift.foldZero, point, kind⟩

/-- The order of planning: by ppem, shift, point (none first) and kind. -/
instance : Ord Hint where
  compare := compareLex (compareOn ppem) (compareLex (compareOn shift)
    (compareLex (compareOn point) (compareOn fun h => h.kind.index)))

instance : Std.TransOrd Hint :=
  inferInstanceAs (Std.TransCmp (compareLex (compareOn ppem) (compareLex (compareOn shift)
    (compareLex (compareOn point) (compareOn fun h => h.kind.index)))))

instance : Std.LawfulEqOrd Hint where
  eq_of_compare {a b} h := by
    obtain ⟨hp, h⟩ := compareLex_eq_eq.mp h
    obtain ⟨hs, h⟩ := compareLex_eq_eq.mp h
    obtain ⟨hq, hk⟩ := compareLex_eq_eq.mp h
    have hp : a.ppem = b.ppem := Std.LawfulEqOrd.eq_of_compare hp
    have hs : a.shift = b.shift := Std.LawfulEqOrd.eq_of_compare hs
    have hq : a.point = b.point := Std.LawfulEqOrd.eq_of_compare hq
    have hk : a.kind = b.kind := DeltaKind.index_injective (Std.LawfulEqOrd.eq_of_compare hk)
    cases a; cases b; simp_all

end Hint

end GlyphHints
