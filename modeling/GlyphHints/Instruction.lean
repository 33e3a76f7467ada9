import GlyphHints.Error
import GlyphHints.Hint

/-!
# The nybble instructions

A program is a sequence of instructions of one or two nybbles. Opcodes 0 to 6 take an
operand, 8 to 13 emit a hint, 14 is RTGAH and 15 ends the program; 7 is reserved. `read`
takes one instruction off the front of a list of values, and `nybbles` writes it back.
-/
namespace GlyphHints

abbrev Nybble := Fin 16

/-- A selection among the three fields of the machine state that can reset and advance. -/
structure Mask where
  ppem : Bool
  point : Bool
  shift : Bool
deriving DecidableEq, Repr

namespace Mask

def empty : Mask := ⟨false, false, false⟩
def all : Mask := ⟨true, true, true⟩

/-- Bit 0 is the ppem, bit 1 the point, bit 2 the shift. -/
def bits (m : Mask) : Nat := m.ppem.toNat + 2 * m.point.toNat + 4 * m.shift.toNat

def ofBits? (bits : Nat) : Option Mask :=
  if bits ≤ 7 then some ⟨bits % 2 = 1, bits / 2 % 2 = 1, bits / 4 % 2 = 1⟩ else none

def ofBits (bits : Nat) : Except Error Mask :=
  match ofBits? bits with
  | some m => .ok m
  | none => .error (.violated .maskBits)

/-- Whether every field that `other` selects is selected. -/
def contains (m other : Mask) : Bool :=
  (m.ppem || !other.ppem) && (m.point || !other.point) && (m.shift || !other.shift)

def union (m other : Mask) : Mask :=
  ⟨m.ppem || other.ppem, m.point || other.point, m.shift || other.shift⟩

def isEmpty (m : Mask) : Bool := m = empty

def name (m : Mask) : String :=
  match m.ppem, m.point, m.shift with
  | false, false, false => "nothing"
  | true, false, false => "ppem"
  | false, true, false => "point index"
  | true, true, false => "ppem and point index"
  | false, false, true => "shift"
  | true, false, true => "ppem and shift"
  | false, true, true => "point index and shift"
  | true, true, true => "ppem, point index, and shift"

theorem bits_le (m : Mask) : m.bits ≤ 7 := by
  rcases m with ⟨a, b, c⟩
  cases a <;> cases b <;> cases c <;> decide

theorem ofBits?_bits (m : Mask) : ofBits? m.bits = some m := by
  rcases m with ⟨a, b, c⟩
  cases a <;> cases b <;> cases c <;> rfl

end Mask

inductive Misc where
  | setXAxis
  | setYAxis
  | incrementDeltaShift
  | decrementDeltaShift
  | incrementDeltaBase
  | decrementDeltaBase
  | addPpem32
  | addPpem64
  | addPoint32
  | addPoint64
  | addRepeat16
  | addRepeat32
  | addRepeat64
deriving DecidableEq, Repr

namespace Misc

def all : List Misc :=
  [setXAxis, setYAxis, incrementDeltaShift, decrementDeltaShift, incrementDeltaBase,
    decrementDeltaBase, addPpem32, addPpem64, addPoint32, addPoint64, addRepeat16,
    addRepeat32, addRepeat64]

def operand : Misc → Nat
  | setXAxis => 0
  | setYAxis => 1
  | incrementDeltaShift => 2
  | decrementDeltaShift => 3
  | incrementDeltaBase => 4
  | decrementDeltaBase => 5
  | addPpem32 => 6
  | addPpem64 => 7
  | addPoint32 => 8
  | addPoint64 => 9
  | addRepeat16 => 10
  | addRepeat32 => 11
  | addRepeat64 => 12

def ofOperand? (operand : Nat) : Option Misc := all.find? (fun m => m.operand == operand)

def name : Misc → String
  | setXAxis => "Set to x-axis"
  | setYAxis => "Set to y-axis"
  | incrementDeltaShift => "Increment SDS by 1"
  | decrementDeltaShift => "Decrement SDS by 1"
  | incrementDeltaBase => "Increment SDB by 48"
  | decrementDeltaBase => "Decrement SDB by 48"
  | addPpem32 => "Increment ppem by 32"
  | addPpem64 => "Increment ppem by 64"
  | addPoint32 => "Increment point by 32"
  | addPoint64 => "Increment point by 64"
  | addRepeat16 => "Increment repeat by 16"
  | addRepeat32 => "Increment repeat by 32"
  | addRepeat64 => "Increment repeat by 64"

def setAxis : Axis → Misc
  | .x => setXAxis
  | .y => setYAxis

theorem operand_le (m : Misc) : m.operand ≤ 12 := by cases m <;> decide

theorem ofOperand?_operand (m : Misc) : ofOperand? m.operand = some m := by cases m <;> rfl

end Misc

inductive Instruction where
  | reset (mask : Mask)
  | setAutoIncrement (mask : Mask)
  /-- The repeat becomes one more than the operand. -/
  | setRepeat (operand : Nybble)
  | addPpem (operand : Nybble)
  | addPoint (operand : Nybble)
  /-- The shift becomes that of the grain. -/
  | setShift (grain : Nybble)
  | misc (operand : Misc)
  | delta (kind : DeltaKind)
  | rtgah
  | finish
deriving DecidableEq

namespace Instruction

def opcode : Instruction → Nat
  | reset _ => 0
  | setAutoIncrement _ => 1
  | setRepeat _ => 2
  | addPpem _ => 3
  | addPoint _ => 4
  | setShift _ => 5
  | misc _ => 6
  | delta kind => kind.opcode
  | rtgah => 14
  | finish => 15

def operand? : Instruction → Option Nat
  | reset mask | setAutoIncrement mask => some mask.bits
  | setRepeat n | addPpem n | addPoint n | setShift n => some n.val
  | misc m => some m.operand
  | delta _ | rtgah | finish => none

/-- The instruction as nybbles: the opcode, then the operand if there is one. -/
def nybbles (i : Instruction) : List Nat := i.opcode :: i.operand?.toList

def width (i : Instruction) : Nat := i.nybbles.length

def text : Instruction → String
  | reset mask => "Reset " ++ mask.name
  | setAutoIncrement mask => "Set auto-increment for " ++ mask.name
  | setRepeat n => "Set repeat to " ++ toString (n.val + 1)
  | addPpem n => "Increment ppem by " ++ toString (n.val + 1)
  | addPoint n => "Increment point by " ++ toString (n.val + 1)
  | setShift n => "Set shift to " ++ toString n.val
  | misc m => m.name
  | delta kind => kind.name
  | rtgah => "RTGAH"
  | finish => "End of hints"

/-- The instruction of an opcode that takes no operand. -/
def ofOpcode (opcode : Nat) : Except Error Instruction :=
  if opcode = 14 then .ok rtgah
  else if opcode = 15 then .ok finish
  else match DeltaKind.ofOpcode? opcode with
    | some kind => .ok (delta kind)
    | none => .error (.reservedOpcode opcode)

/-- The instruction of an opcode and its operand. -/
def ofOperand (opcode operand : Nat) : Except Error Instruction :=
  if h : operand < 16 then
    let mask (make : Mask → Instruction) : Except Error Instruction :=
      match Mask.ofBits? operand with
      | some m => .ok (make m)
      | none => .error (.invalidOperand opcode operand)
    match opcode with
    | 0 => mask reset
    | 1 => mask setAutoIncrement
    | 2 => .ok (setRepeat ⟨operand, h⟩)
    | 3 => .ok (addPpem ⟨operand, h⟩)
    | 4 => .ok (addPoint ⟨operand, h⟩)
    | 5 => .ok (setShift ⟨operand, h⟩)
    | _ => match Misc.ofOperand? operand with
      | some m => .ok (misc m)
      | none => .error (.unknownMisc operand)
  else .error (.invalidOperand opcode operand)

/-- Reads the instruction at the front of a list of values, with what follows it. -/
def read : List Nat → Except Error (Instruction × List Nat)
  | [] => .error .truncatedStream
  | opcode :: rest =>
    if hasOperand opcode then
      match rest with
      | [] => .error .truncatedStream
      | operand :: rest => (ofOperand opcode operand).map (·, rest)
    else (ofOpcode opcode).map (·, rest)

theorem nybbles_lt (i : Instruction) : ∀ n ∈ i.nybbles, n < 16 := by
  rcases i with m | m | n | n | n | n | m | k | _ | _ <;>
    simp [nybbles, opcode, operand?]
  · have := m.bits_le; omega
  · have := m.bits_le; omega
  · have := m.operand_le; omega
  · cases k <;> decide

def writeAll (instructions : List Instruction) : List Nat := instructions.flatMap nybbles

theorem writeAll_lt {instructions : List Instruction} :
    ∀ n, n ∈ writeAll instructions → n < 16 := by
  intro n hn
  obtain ⟨i, _, hi⟩ := List.mem_flatMap.mp hn
  exact i.nybbles_lt n hi

/-- Reading gives back what was written, whatever follows. -/
theorem read_nybbles (i : Instruction) (rest : List Nat) :
    read (i.nybbles ++ rest) = .ok (i, rest) := by
  rcases i with m | m | n | n | n | n | m | k | _ | _
  case reset | setAutoIncrement =>
    have hb : m.bits < 16 := Nat.lt_of_le_of_lt m.bits_le (by decide)
    simp [nybbles, opcode, operand?, read, hasOperand, ofOperand, hb, Mask.ofBits?_bits,
      Except.map]
  case misc =>
    have hb : m.operand < 16 := Nat.lt_of_le_of_lt m.operand_le (by decide)
    simp [nybbles, opcode, operand?, read, hasOperand, ofOperand, hb,
      Misc.ofOperand?_operand, Except.map]
  case delta => cases k <;> rfl
  all_goals simp [nybbles, opcode, operand?, read, hasOperand, ofOperand, ofOpcode, Except.map]

end Instruction

end GlyphHints
