import GlyphHints.Hex
import GlyphHints.Shift.Text
import GlyphHints.Symbol

/-!
# What can go wrong

One cause per constructor, with the values its message names. Nothing is returned beside an
error: a glyph that fails leaves no partial result.
-/
namespace GlyphHints

inductive PrologField where
  | baseShift
  | basePpem
  | basePoint
deriving DecidableEq, Repr

def PrologField.name : PrologField → String
  | baseShift => "base shift"
  | basePpem => "base ppem"
  | basePoint => "base point"

/-- The rules that values keep wherever they come from. -/
inductive Rule where
  /-- A mask selects among three fields. -/
  | maskBits
  /-- A recorded hint moves its point, by a finite amount. -/
  | usableShift
  /-- A point is given exactly for the kinds that take one. -/
  | pointPresence
  /-- Delta bases lie a multiple of 48 apart. -/
  | deltaBaseSpacing
  /-- An encoded program decodes to what it was made from. -/
  | roundTrip
deriving DecidableEq, Repr

def Rule.text : Rule → String
  | maskBits => "mask has bits above 7"
  | usableShift => "delta hints need a nonzero finite shift"
  | pointPresence => "point index does not match delta kind"
  | deltaBaseSpacing => "delta base change is not a multiple of 48"
  | roundTrip => "round trip mismatch"

inductive Error where
  /-- No delta shift from 0 to 6 makes the shift a whole number of at most eight grains. -/
  | granularityExhausted (shift : Shift)
  | basePpemTooLow (ppem : Nat)
  | prologOverflow (field : PrologField) (value : Shift)
  | violated (rule : Rule)
  | missingCode (symbol : Symbol)
  | truncatedStream
  | reservedOpcode (opcode : Nat)
  | invalidNybble (value : Nat)
  | invalidGranularity (value : Nat)
  | unknownMisc (operand : Nat)
  | invalidOperand (opcode operand : Nat)
  | invalidCode
  | badHeader
  | streamTooLong (bytes : Nat)
  /-- A Spark program ends inside its header or an instruction. -/
  | sparkOutOfBounds
  | badSparkHeader
  | unknownSparkOpcode (opcode offset : Nat)
  | badSparkOperand (opcode value : Nat)
deriving DecidableEq

namespace Error

/-- What a read past the end of a Spark program is due to. -/
def outOfBoundsText : String := "An offset was out of bounds"

def message : Error → String
  | granularityExhausted shift =>
    "delta shift out of range: " ++ shift.text .bare ++
      " is not representable in the delta-shift grid"
  | basePpemTooLow ppem => "base PPEM " ++ toString ppem ++ " is below 9"
  | prologOverflow field value =>
    "prolog cannot hold " ++ field.name ++ " value " ++ value.text .bare
  | violated rule => "invariant violated: " ++ rule.text
  | missingCode symbol =>
    let operand := match symbol.operand? with
      | some operand => "Some(" ++ toString operand ++ ")"
      | none => "None"
    "no Huffman code for opcode " ++ toString symbol.opcode ++ " (operand " ++ operand ++ ")"
  | truncatedStream => "nybble stream ended unexpectedly"
  | reservedOpcode opcode => "reserved opcode " ++ toString opcode ++ " in nybble stream"
  | invalidNybble value => "value " ++ toString value ++ " does not fit in a nybble"
  | invalidGranularity value => "prolog granularity " ++ toString value ++ " is above 6"
  | unknownMisc operand => "unknown misc operand " ++ toString operand
  | invalidOperand opcode operand =>
    "operand " ++ toString operand ++ " is not valid for opcode " ++ toString opcode
  | invalidCode => "bit pattern matches no Huffman code"
  | badHeader => "bad compressed hints header"
  | streamTooLong bytes => "packed stream too long: " ++ toString bytes ++ " bytes"
  | sparkOutOfBounds => "failed to read Spark hints: " ++ outOfBoundsText
  | badSparkHeader => "bad Spark hints header"
  | unknownSparkOpcode opcode offset =>
    "unknown Spark opcode 0x" ++ upperHexByte opcode ++ " at offset " ++ toString offset
  | badSparkOperand opcode value =>
    "Spark opcode 0x" ++ upperHexByte opcode ++ " has invalid operand " ++ toString value

/-- The message followed by the messages of what caused it, joined by colons. A failed read
is the only error with a cause of its own, which its message already quotes. -/
def chainMessage (e : Error) : String :=
  match e with
  | sparkOutOfBounds => e.message ++ ": " ++ outOfBoundsText
  | _ => e.message

end Error

end GlyphHints
