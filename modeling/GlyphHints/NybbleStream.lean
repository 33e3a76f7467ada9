import GlyphHints.Grain
import GlyphHints.Instruction

/-!
# Nybble streams

A compressed program is a stream of nybbles: a prolog of five or seven, which holds the base
values of shift, ppem and point, and a body of instructions up to the one that ends it.
Whatever follows that instruction belongs to the stream but is never read.

`Prolog.read` and the walks over a body take any values. A `NybbleStream` is known to hold
nybbles only.

A cursor stands at a place of a stream and takes one instruction after another from there, each
with the place of its first nybble; the end of the program and an error are the last things it
gives. A listing states the base values of a stream, shows each instruction of its body on a line
of its own, and ends with the bytes the stream takes unpacked.
-/
namespace GlyphHints

/-- The base values of a stream. -/
structure Prolog where
  /-- The delta shift at which the base shift is a grain. -/
  granularity : Nat
  shiftGrain : Nat
  basePpem : Nat
  basePoint : Nat
deriving DecidableEq, Repr

namespace Prolog

/-- The nybble that announces a base ppem of two nybbles. -/
def longPpem : Nat := 15

/-- The base ppem that a single nybble of zero stands for. -/
def minBasePpem : Nat := 9

def baseShift (p : Prolog) : Shift := Grain.toShift p.shiftGrain p.granularity

/-- Reads the prolog at the front of a list of values, with its length. -/
def read : List Nat → Except Error (Prolog × Nat)
  | [] => .error .truncatedStream
  | granularity :: rest =>
    if maxDeltaShift < granularity then .error (.invalidGranularity granularity)
    else match rest with
      | grain :: ppem :: rest =>
        if ppem = longPpem then
          match rest with
          | ppemHigh :: ppemLow :: pointHigh :: pointLow :: _ =>
            .ok (⟨granularity, grain, 16 * ppemHigh + ppemLow, 16 * pointHigh + pointLow⟩, 7)
          | _ => .error .truncatedStream
        else
          match rest with
          | pointHigh :: pointLow :: _ =>
            .ok (⟨granularity, grain, minBasePpem + ppem, 16 * pointHigh + pointLow⟩, 5)
          | _ => .error .truncatedStream
      | _ => .error .truncatedStream

/-- Writes the prolog, a base ppem below 24 in one nybble and any other in three. -/
def nybbles (p : Prolog) : List Nat :=
  [p.granularity, p.shiftGrain] ++
    (if p.basePpem < minBasePpem + longPpem then [p.basePpem - minBasePpem]
      else [longPpem, p.basePpem / 16, p.basePpem % 16]) ++
    [p.basePoint / 16, p.basePoint % 16]

/-- Every field fits the nybbles that `nybbles` writes it in. -/
structure Fits (p : Prolog) : Prop where
  granularity_le : p.granularity ≤ maxDeltaShift
  shiftGrain_le : p.shiftGrain ≤ 15
  le_basePpem : minBasePpem ≤ p.basePpem
  basePpem_le : p.basePpem ≤ 255
  basePoint_le : p.basePoint ≤ 255

theorem Fits.nybbles_lt {p : Prolog} (h : p.Fits) : ∀ n ∈ p.nybbles, n < 16 := by
  obtain ⟨hg, hs, hl, hp, hq⟩ := h
  intro n hn
  unfold nybbles at hn
  unfold maxDeltaShift at hg
  split at hn <;> simp [minBasePpem, longPpem] at * <;> omega

end Prolog

@[ext] structure NybbleStream where
  nybbles : List Nat
  nybbles_lt : ∀ n ∈ nybbles, n < 16

namespace NybbleStream

instance : DecidableEq NybbleStream := fun a b =>
  if h : a.nybbles = b.nybbles then isTrue (NybbleStream.ext h)
  else isFalse fun hab => h (congrArg nybbles hab)

/-- The stream of a list of values, if they are all nybbles; the first that is not one is
reported. -/
def ofValues (values : List Nat) : Except Error NybbleStream :=
  match h : values.find? (fun n => decide (15 < n)) with
  | some bad => .error (.invalidNybble bad)
  | none => .ok ⟨values, fun n hn => by
      have := List.find?_eq_none.mp h n hn
      simp at this
      omega⟩

/-- The program of a glyph that has no hints: RTGAH and nothing else. -/
def noHints : NybbleStream := ⟨[3, 0, 0, 0, 0, 14, 15], by decide⟩

def length (s : NybbleStream) : Nat := s.nybbles.length

def isEmpty (s : NybbleStream) : Bool := s.nybbles.isEmpty

/-- Bytes taken at two nybbles a byte. -/
def packedLength (s : NybbleStream) : Nat := (s.length + 1) / 2

def text (s : NybbleStream) : String :=
  String.ofList (s.nybbles.flatMap fun n => (upperHex n).toList)

def take (s : NybbleStream) (n : Nat) : NybbleStream :=
  ⟨s.nybbles.take n, fun m hm => s.nybbles_lt m (List.mem_of_mem_take hm)⟩

def prolog (s : NybbleStream) : Except Error (Prolog × Nat) := Prolog.read s.nybbles

def body (s : NybbleStream) : Except Error (List Nat) :=
  s.prolog.map fun p => s.nybbles.drop p.2

end NybbleStream

/-- The instructions of a body, and why there are no more if it is not because the last one
ends the program. -/
structure Walk where
  instructions : List Instruction
  fault : Option Error
deriving DecidableEq

namespace Walk

/-- Goes on with a walk that has met the instructions `met`, latest first. -/
def resume (met : List Instruction) : List Nat → Walk
  | [] => ⟨met.reverse, some .truncatedStream⟩
  | opcode :: rest =>
    if hasOperand opcode then
      match rest with
      | [] => ⟨met.reverse, some .truncatedStream⟩
      | operand :: rest =>
        match Instruction.ofOperand opcode operand with
        | .error e => ⟨met.reverse, some e⟩
        | .ok i => resume (i :: met) rest
    else
      match Instruction.ofOpcode opcode with
      | .error e => ⟨met.reverse, some e⟩
      | .ok .finish => ⟨(.finish :: met).reverse, none⟩
      | .ok i => resume (i :: met) rest

/-- Reads instructions until one ends the program or cannot be read. -/
def ofBody (body : List Nat) : Walk := resume [] body

def complete (w : Walk) : Except Error (List Instruction) :=
  match w.fault with
  | some e => .error e
  | none => .ok w.instructions

/-- Each instruction with the place of its first nybble, the first being at `start`. -/
def located (start : Nat) (instructions : List Instruction) : List (Nat × Instruction) :=
  (instructions.foldl
    (fun (p : Nat × List (Nat × Instruction)) i => (p.1 + i.width, (p.1, i) :: p.2))
    (start, [])).2.reverse

end Walk

namespace NybbleStream

def walk (s : NybbleStream) : Except Error Walk := s.body.map Walk.ofBody

end NybbleStream

namespace Symbol

/-- Goes on with splitting a body into symbols after those in `met`, latest first. -/
def splitAfter (met : List Symbol) : List Nat → Except Error (List Symbol)
  | [] => .error .truncatedStream
  | opcode :: rest =>
    if hasOperand opcode then
      match rest with
      | [] => .error .truncatedStream
      | operand :: rest => splitAfter (fused opcode operand :: met) rest
    else if opcode = 15 then .ok (finish :: met).reverse
    else splitAfter (bare opcode :: met) rest

/-- Splits a body into symbols up to the one that ends it. Only the framing is looked at:
opcodes and operands that no instruction has come back as symbols. -/
def split (body : List Nat) : Except Error (List Symbol) := splitAfter [] body

end Symbol

namespace NybbleStream

def symbols (s : NybbleStream) : Except Error (List Symbol) := s.body.bind Symbol.split

end NybbleStream

/-! ## One instruction at a time -/

structure Cursor where
  nybbles : List Nat
  position : Nat
  stopped : Bool
deriving DecidableEq

namespace Cursor

abbrev Item : Type := Except Error (Nat × Instruction)

/-- What comes next, and the cursor behind it. -/
def next? (c : Cursor) : Option (Item × Cursor) :=
  if c.stopped then none
  else
    match Instruction.read (c.nybbles.drop c.position) with
    | .error e => some (.error e, { c with stopped := true })
    | .ok (i, _) => some (.ok (c.position, i),
        { c with position := c.position + i.width, stopped := decide (i = .finish) })

end Cursor

/-- The cursor in front of the first instruction of a stream. -/
def NybbleStream.cursor (s : NybbleStream) : Except Error Cursor :=
  s.prolog.map fun p => ⟨s.nybbles, p.2, false⟩

/-! ## Listings -/

/-- A sequence number of at least three digits. -/
def sequenceText (n : Nat) : String :=
  let digits := Nat.toDigits 10 n
  String.ofList (List.replicate (3 - digits.length) '0' ++ digits)

/-- Number, nybbles and meaning of an instruction. -/
def Instruction.line (number : Nat) (i : Instruction) : String :=
  let operand := match i.operand? with
    | some operand => " " ++ upperHex operand
    | none => "  "
  sequenceText number ++ "  " ++ upperHex i.opcode ++ operand ++ "   " ++ i.text

namespace NybbleStream

def listingLines (s : NybbleStream) : Except Error (List String) := do
  let (prolog, _) ← s.prolog
  let walk ← s.walk
  let instructions ← walk.complete
  let opening := [
    "Granularity is " ++ toString prolog.granularity,
    "Base shift is " ++ prolog.baseShift.text .decimal,
    "Base PPEM is " ++ toString prolog.basePpem,
    "Base point is " ++ toString prolog.basePoint]
  return opening ++ instructions.mapIdx Instruction.line ++
    ["Total bytes = " ++ toString s.packedLength]

def listing (s : NybbleStream) : Except Error String :=
  s.listingLines.map fun lines => String.join (lines.map (· ++ "\n"))

end NybbleStream

end GlyphHints
