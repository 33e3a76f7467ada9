import GlyphHints.NybbleStream

/-!
# The hint machine

The machine holds the coordinates of the next hint and the settings that move them. It is
stepped by the instructions of a body: `step` gives the state after one instruction, or the
cause for which the instruction cannot be obeyed. Sums stop at the largest 32-bit number.
-/
namespace GlyphHints

/-- The ppems that one delta base covers. -/
def deltaBaseSpan : Nat := 48

/-- The delta shift every body starts with. -/
def initialDeltaShift : Nat := 3

/-- The delta base every body starts with. -/
def initialDeltaBase : Nat := 9

/-- A sum that stops at the largest 32-bit number. -/
def cappedAdd (a b : Nat) : Nat := min (a + b) 4294967295

structure Base where
  shift : Shift
  ppem : Nat
  point : Nat
deriving DecidableEq

def Prolog.base (p : Prolog) : Base := ⟨p.baseShift, p.basePpem, p.basePoint⟩

structure Machine where
  axis : Axis
  shift : Shift
  ppem : Nat
  point : Nat
  deltaBase : Nat
  deltaShift : Nat
  /-- How far a hint moves the fields of the auto-increment mask. -/
  repeats : Nat
  autoIncrement : Mask
  base : Base
deriving DecidableEq

namespace Machine

def start (base : Base) : Machine where
  axis := .x
  shift := base.shift
  ppem := base.ppem
  point := base.point
  deltaBase := initialDeltaBase
  deltaShift := initialDeltaShift
  repeats := 1
  autoIncrement := .all
  base := base

def reset (s : Machine) (mask : Mask) : Machine :=
  { s with
    ppem := if mask.ppem then s.base.ppem else s.ppem
    point := if mask.point then s.base.point else s.point
    shift := if mask.shift then s.base.shift else s.shift }

/-- The shift a number of grains past the present one. -/
def shiftAfter (s : Machine) (grains : Nat) : Shift :=
  Grain.toShift (Grain.ofShift s.shift s.deltaShift + grains) s.deltaShift

/-- Moves the fields of the auto-increment mask, as every hint does once it is emitted. -/
def advance (s : Machine) : Machine :=
  { s with
    ppem := if s.autoIncrement.ppem then cappedAdd s.ppem s.repeats else s.ppem
    point := if s.autoIncrement.point then cappedAdd s.point s.repeats else s.point
    shift := if s.autoIncrement.shift then s.shiftAfter s.repeats else s.shift }

/-- The hint that a delta instruction emits in this state. -/
def hint (s : Machine) (kind : DeltaKind) : Hint :=
  .of s.ppem s.shift (if kind.takesPoint then some s.point else none) kind

def stepMisc (s : Machine) (m : Misc) : Except Error Machine :=
  let refused : Except Error Machine := .error (.invalidOperand 6 m.operand)
  match m with
  | .setXAxis => .ok ({ s with axis := .x }.reset .all)
  | .setYAxis => .ok ({ s with axis := .y }.reset .all)
  | .incrementDeltaShift =>
    if maxDeltaShift ≤ s.deltaShift then refused
    else .ok { s with deltaShift := s.deltaShift + 1 }
  | .decrementDeltaShift =>
    if s.deltaShift = 0 then refused else .ok { s with deltaShift := s.deltaShift - 1 }
  | .incrementDeltaBase => .ok { s with deltaBase := cappedAdd s.deltaBase deltaBaseSpan }
  | .decrementDeltaBase =>
    if s.deltaBase < deltaBaseSpan then refused
    else .ok { s with deltaBase := s.deltaBase - deltaBaseSpan }
  | .addPpem32 => .ok { s with ppem := cappedAdd s.ppem 32 }
  | .addPpem64 => .ok { s with ppem := cappedAdd s.ppem 64 }
  | .addPoint32 => .ok { s with point := cappedAdd s.point 32 }
  | .addPoint64 => .ok { s with point := cappedAdd s.point 64 }
  | .addRepeat16 => .ok { s with repeats := cappedAdd s.repeats 16 }
  | .addRepeat32 => .ok { s with repeats := cappedAdd s.repeats 32 }
  | .addRepeat64 => .ok { s with repeats := cappedAdd s.repeats 64 }

/-- Obeys an instruction. A delta moves the machine on from the hint it emits; RTGAH starts
the next phase at the base values. -/
def step (s : Machine) : Instruction → Except Error Machine
  | .reset mask => .ok (s.reset mask)
  | .setAutoIncrement mask => .ok { s with autoIncrement := mask }
  | .setRepeat n => .ok { s with repeats := n.val + 1 }
  | .addPpem n => .ok { s with ppem := cappedAdd s.ppem (n.val + 1) }
  | .addPoint n => .ok { s with point := cappedAdd s.point (n.val + 1) }
  | .setShift grain => .ok { s with shift := Grain.toShift (grain.val : Int) s.deltaShift }
  | .misc m => s.stepMisc m
  | .delta _ => .ok s.advance
  | .rtgah => .ok (s.reset .all)
  | .finish => .ok s

end Machine

end GlyphHints
