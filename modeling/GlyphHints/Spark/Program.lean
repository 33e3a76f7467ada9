import GlyphHints.Grain
import GlyphHints.Hint
import GlyphHints.Machine

/-!
# Spark programs

Uncompressed hints are a program of byte instructions. Besides axis switches, delta base and
delta shift settings and RTGAH it holds delta instructions in three bands of sixteen ppems
each. A delta gives specs to points; a spec is one byte, with the ppem in the band in its
high half and a grain in its low half.
-/
namespace GlyphHints.Spark

/-- The headers a program may be stored with. -/
inductive HeaderStyle where
  /-- `7F`, a marker and the length. -/
  | old
  /-- `B0`, a marker, `7F` and the length. -/
  | new
  /-- The two bytes `B0 0B`, a program of RTGAH alone. -/
  | rtgahOnly
deriving DecidableEq, Repr

/-- A ppem within a band and a grain. -/
structure Spec where
  byte : UInt8
deriving DecidableEq, Repr

/-- The settings under which specs are read. -/
structure Context where
  axis : Axis
  deltaBase : Nat
  deltaShift : Nat
deriving DecidableEq, Repr

/-- The settings every program starts with. -/
def Context.start : Context := ⟨.x, initialDeltaBase, initialDeltaShift⟩

/-- The ppem and shift that a spec means in a band, counted from 1. -/
def Spec.resolve (spec : Spec) (band deltaBase deltaShift : Nat) : Nat × Shift :=
  (spec.byte.toNat / 16 + deltaBase + 16 * (band - 1),
    Grain.toShift ((spec.byte.toNat % 16 : Nat) : Int) deltaShift)

/-- A delta instruction: each point receives each of its specs. -/
structure Delta where
  kind : DeltaKind
  /-- 1, 2 or 3. -/
  band : Nat
  entries : List (Option Nat × List Spec)
deriving DecidableEq, Repr

inductive Instruction where
  | setAxis (axis : Axis)
  | setDeltaBase (deltaBase : Nat)
  | setDeltaShift (deltaShift : Nat)
  | rtgah
  | delta (delta : Delta)
deriving DecidableEq, Repr

/-- The settings after an instruction. -/
def Context.after (c : Context) : Instruction → Context
  | .setAxis axis => { c with axis }
  | .setDeltaBase deltaBase => { c with deltaBase }
  | .setDeltaShift deltaShift => { c with deltaShift }
  | .rtgah => c
  | .delta _ => c

structure Program where
  gray : Bool
  style : HeaderStyle
  instructions : List Instruction
deriving DecidableEq, Repr

/-- The opcodes of a kind in bands 1, 2 and 3. -/
def bandOpcodes : DeltaKind → List Nat
  | .deltaP => [0x5D, 0x71, 0x72]
  | .deltaK => [0xA7, 0xA8, 0xA9]
  | .deltaL => [0xAA, 0xAB, 0xAC]
  | .deltaS => [0xAD, 0xAE, 0xAF]
  | .deltaG => [0xA1, 0xA5, 0xA6]
  | .strokeDelta => [0xA2, 0xA3, 0xA4]

/-- The kind and band of a delta opcode. -/
def kindAndBand? (opcode : Nat) : Option (DeltaKind × Nat) :=
  DeltaKind.all.findSome? fun kind =>
    ((bandOpcodes kind).idxOf? opcode).map fun place => (kind, place + 1)

end GlyphHints.Spark
