import GlyphHints.Text

/-!
# Bytes in hexadecimal

Bytes are written as two upper-case digits each, with a space between bytes. Reading takes
digits of either case and ignores blanks wherever they stand, also inside a byte.
-/
namespace GlyphHints

/-- Upper-case digits in base sixteen. -/
def upperHex (n : Nat) : String :=
  String.ofList ((Nat.toDigits 16 n).map Char.toUpper)

/-- Two upper-case digits for a byte. -/
def upperHexByte (n : Nat) : String :=
  if n < 16 then "0" ++ upperHex n else upperHex n

namespace Hex

inductive Fault where
  | invalidDigit (c : Char)
  | oddDigits (count : Nat)
deriving DecidableEq, Repr

def Fault.message : Fault → String
  | invalidDigit c => "invalid hex digit " ++ Text.quotedChar c
  | oddDigits count => "odd number of hex digits (" ++ toString count ++ ")"

def digit (c : Char) : Except Fault Nat :=
  if '0' ≤ c ∧ c ≤ '9' then .ok (c.toNat - '0'.toNat)
  else if 'a' ≤ c ∧ c ≤ 'f' then .ok (c.toNat - 'a'.toNat + 10)
  else if 'A' ≤ c ∧ c ≤ 'F' then .ok (c.toNat - 'A'.toNat + 10)
  else .error (.invalidDigit c)

/-- Joins digits two by two. A digit left over does not count. -/
def joinDigits : List Nat → List UInt8
  | high :: low :: rest => UInt8.ofNat (16 * high + low) :: joinDigits rest
  | _ => []

/-- The bytes of a text. A wrong digit is reported before an odd number of them. -/
def decode (text : List Char) : Except Fault (List UInt8) := do
  let digits ← (text.filter fun c => !Text.isBlank c).mapM digit
  if digits.length % 2 = 1 then throw (.oddDigits digits.length)
  return joinDigits digits

def encode (bytes : List UInt8) : String :=
  String.intercalate " " (bytes.map fun b => upperHexByte b.toNat)

end Hex

end GlyphHints
