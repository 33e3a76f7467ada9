import GlyphHints.Symbol

/-!
# The code of the packed format

A fixed table gives a bit string to each symbol that packed streams may hold. No code is
the beginning of another, none is longer than fifteen bits, and every sequence of fifteen
bits begins with a code. Some symbols have none: resets and masks of nothing, opcode 7, and
the operands of opcode 6 that change the delta base or add to the ppem.

Bit strings are lists of bits, the most significant first.
-/
namespace GlyphHints

/-! ## Bit strings -/

namespace Bits

/-- The last `width` binary digits of a number. -/
def ofNat (n : Nat) : Nat → List Bool
  | 0 => []
  | width + 1 => n.testBit width :: ofNat n width

/-- The number with these binary digits. -/
def toNat (bits : List Bool) : Nat := bits.foldl (fun n b => 2 * n + b.toNat) 0

def ofByte (b : UInt8) : List Bool := ofNat b.toNat 8

/-- Goes on with packing bits after the bytes in `done`, latest first. -/
def toBytesAfter (done : List UInt8) : List Bool → List UInt8
  | [] => done.reverse
  | b₀ :: b₁ :: b₂ :: b₃ :: b₄ :: b₅ :: b₆ :: b₇ :: rest =>
    toBytesAfter (UInt8.ofNat (toNat [b₀, b₁, b₂, b₃, b₄, b₅, b₆, b₇]) :: done) rest
  | last =>
    (UInt8.ofNat (toNat (last ++ List.replicate (8 - last.length) false)) :: done).reverse

/-- Packs bits eight to a byte; zeros fill up the last byte. -/
def toBytes (bits : List Bool) : List UInt8 := toBytesAfter [] bits

def text (bits : List Bool) : String := String.ofList (bits.map fun b => if b then '1' else '0')

@[simp] theorem length_ofNat (n width : Nat) : (ofNat n width).length = width := by
  induction width with
  | zero => rfl
  | succ w ih => simp [ofNat, ih]

end Bits

/-! ## Codes -/

def maxCodeLength : Nat := 15

def codeTable : List (Symbol × List Bool) :=
  [(.fused 0 1, Bits.ofNat 0b101100 6),
    (.fused 0 2, Bits.ofNat 0b11111 5),
    (.fused 0 3, Bits.ofNat 0b011011 6),
    (.fused 1 1, Bits.ofNat 0b1111010 7),
    (.fused 1 2, Bits.ofNat 0b011001 6),
    (.fused 1 3, Bits.ofNat 0b101110001 9),
    (.fused 1 4, Bits.ofNat 0b11110001001 11),
    (.fused 1 5, Bits.ofNat 0b101111 6),
    (.fused 1 6, Bits.ofNat 0b100001 6),
    (.fused 1 7, Bits.ofNat 0b01000 5),
    (.fused 2 0, Bits.ofNat 0b10100 5),
    (.fused 2 1, Bits.ofNat 0b00111 5),
    (.fused 2 2, Bits.ofNat 0b1011011 7),
    (.fused 2 3, Bits.ofNat 0b00000 5),
    (.fused 2 4, Bits.ofNat 0b10111001 8),
    (.fused 2 5, Bits.ofNat 0b000010 6),
    (.fused 2 6, Bits.ofNat 0b111001111 9),
    (.fused 2 7, Bits.ofNat 0b101110000 9),
    (.fused 2 8, Bits.ofNat 0b000101110 9),
    (.fused 2 9, Bits.ofNat 0b10010110 8),
    (.fused 2 10, Bits.ofNat 0b1110011010 10),
    (.fused 2 11, Bits.ofNat 0b1110011011 10),
    (.fused 2 12, Bits.ofNat 0b0001011010 10),
    (.fused 2 13, Bits.ofNat 0b0101110000 10),
    (.fused 2 14, Bits.ofNat 0b0001011000 10),
    (.fused 2 15, Bits.ofNat 0b0101110001 10),
    (.fused 3 0, Bits.ofNat 0b1001001 7),
    (.fused 3 1, Bits.ofNat 0b010011 6),
    (.fused 3 2, Bits.ofNat 0b11101011 8),
    (.fused 3 3, Bits.ofNat 0b00011 5),
    (.fused 3 4, Bits.ofNat 0b111001110 9),
    (.fused 3 5, Bits.ofNat 0b001001 6),
    (.fused 3 6, Bits.ofNat 0b11110001000 11),
    (.fused 3 7, Bits.ofNat 0b1000001110 10),
    (.fused 3 8, Bits.ofNat 0b10000011110 11),
    (.fused 3 9, Bits.ofNat 0b10000010 8),
    (.fused 3 10, Bits.ofNat 0b100000111110 12),
    (.fused 3 11, Bits.ofNat 0b1000001100 10),
    (.fused 3 12, Bits.ofNat 0b10000011111110 14),
    (.fused 3 13, Bits.ofNat 0b100000111111111 15),
    (.fused 3 14, Bits.ofNat 0b100000111111110 15),
    (.fused 3 15, Bits.ofNat 0b0001011001 10),
    (.fused 4 0, Bits.ofNat 0b1110111 7),
    (.fused 4 1, Bits.ofNat 0b001011 6),
    (.fused 4 2, Bits.ofNat 0b1011101 7),
    (.fused 4 3, Bits.ofNat 0b1110110 7),
    (.fused 4 4, Bits.ofNat 0b0101111 7),
    (.fused 4 5, Bits.ofNat 0b1001010 7),
    (.fused 4 6, Bits.ofNat 0b0100101 7),
    (.fused 4 7, Bits.ofNat 0b1000000 7),
    (.fused 4 8, Bits.ofNat 0b0000110 7),
    (.fused 4 9, Bits.ofNat 0b0100100 7),
    (.fused 4 10, Bits.ofNat 0b11110110 8),
    (.fused 4 11, Bits.ofNat 0b11110111 8),
    (.fused 4 12, Bits.ofNat 0b11110000 8),
    (.fused 4 13, Bits.ofNat 0b11101010 8),
    (.fused 4 14, Bits.ofNat 0b11100100 8),
    (.fused 4 15, Bits.ofNat 0b10001 5),
    (.fused 5 0, Bits.ofNat 0b0101001 7),
    (.fused 5 1, Bits.ofNat 0b010111001 9),
    (.fused 5 2, Bits.ofNat 0b01011101 8),
    (.fused 5 3, Bits.ofNat 0b0001010 7),
    (.fused 5 4, Bits.ofNat 0b1111001 7),
    (.fused 5 5, Bits.ofNat 0b010110 6),
    (.fused 5 6, Bits.ofNat 0b001000 6),
    (.fused 5 7, Bits.ofNat 0b0000111 7),
    (.fused 5 8, Bits.ofNat 0b0101000 7),
    (.fused 5 9, Bits.ofNat 0b011000 6),
    (.fused 5 10, Bits.ofNat 0b011010 6),
    (.fused 5 11, Bits.ofNat 0b1110100 7),
    (.fused 5 12, Bits.ofNat 0b11100101 8),
    (.fused 5 13, Bits.ofNat 0b111100011 9),
    (.fused 5 14, Bits.ofNat 0b111001100 9),
    (.fused 5 15, Bits.ofNat 0b1011010 7),
    (.fused 6 0, Bits.ofNat 0b0001000 7),
    (.fused 6 1, Bits.ofNat 0b00110 5),
    (.fused 6 2, Bits.ofNat 0b0001011011 10),
    (.fused 6 3, Bits.ofNat 0b1000001101 10),
    (.fused 6 8, Bits.ofNat 0b111000 6),
    (.fused 6 9, Bits.ofNat 0b000101111 9),
    (.fused 6 10, Bits.ofNat 0b10010111 8),
    (.fused 6 11, Bits.ofNat 0b1111000101 10),
    (.fused 6 12, Bits.ofNat 0b1000001111110 13),
    (.bare 8, Bits.ofNat 0b0111 4),
    (.bare 9, Bits.ofNat 0b001010 6),
    (.bare 10, Bits.ofNat 0b1001000 7),
    (.bare 11, Bits.ofNat 0b010101 6),
    (.bare 12, Bits.ofNat 0b0001001 7),
    (.bare 13, Bits.ofNat 0b110 3),
    (.bare 14, Bits.ofNat 0b10011 5),
    (.bare 15, Bits.ofNat 0b10101 5)]

namespace Symbol

/-- The code of a symbol, if it has one. -/
def code? (s : Symbol) : Option (List Bool) :=
  (codeTable.find? (fun e => e.1 == s)).map (·.2)

/-- The symbol whose code has this length and, read as a binary number, this value. -/
def ofCode? (value length : Nat) : Option Symbol :=
  (codeTable.find? (fun e => e.2.length == length && Bits.toNat e.2 == value)).map (·.1)

/-- Whether a symbol carries an operand exactly if its opcode takes one, and has a code. -/
def isCodable (s : Symbol) : Bool :=
  s.operand?.isSome == hasOperand s.opcode && s.code?.isSome

end Symbol

end GlyphHints
