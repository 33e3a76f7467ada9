import GlyphHints.CodeTable
import GlyphHints.Encoder

/-!
# Packed streams

A stream is stored behind a header of four bytes: `7F`, a marker that tells gray from
monochrome, and the length of the whole in two bytes, the high one first. Its nybbles are
packed raw, two to a byte, or coded: the prolog in groups of four bits, each symbol of the
body by its code, and zeros up to a whole byte. The compressed hints of a glyph are its stream
and whether it is meant for gray rendering.
-/
namespace GlyphHints

inductive Format where
  | huffman
  | raw
deriving DecidableEq, Repr

namespace Packing

def headerByte : UInt8 := 0x7F
def monochromeMarker : UInt8 := 0xF6
def grayMarker : UInt8 := 0xF7
def headerLength : Nat := 4

def marker (gray : Bool) : UInt8 := if gray then grayMarker else monochromeMarker

/-- Puts the header in front of packed nybbles. -/
def frame (gray : Bool) (body : List UInt8) : Except Error (List UInt8) :=
  let total := body.length + headerLength
  if 65535 < total then .error (.streamTooLong total)
  else .ok ([headerByte, marker gray, UInt8.ofNat (total / 256), UInt8.ofNat (total % 256)] ++ body)

/-- Takes the header off, giving the gray flag and the packed nybbles. -/
def unframe : List UInt8 → Except Error (Bool × List UInt8)
  | first :: mark :: high :: low :: body =>
    if first = headerByte ∧ (mark = monochromeMarker ∨ mark = grayMarker) ∧
        256 * high.toNat + low.toNat = body.length + headerLength then
      .ok (decide (mark = grayMarker), body)
    else .error .badHeader
  | _ => .error .badHeader

/-! ## Raw packing -/

/-- Goes on with packing pairs of nybbles after the bytes in `done`, latest first. -/
def pairsAfter (done : List UInt8) : List Nat → List UInt8
  | high :: low :: rest => pairsAfter (UInt8.ofNat (16 * high + low) :: done) rest
  | [high] => (UInt8.ofNat (16 * high) :: done).reverse
  | [] => done.reverse

/-- Two nybbles a byte, the high one first; a zero fills up the last byte. -/
def pairs (nybbles : List Nat) : List UInt8 := pairsAfter [] nybbles

/-- The two nybbles of a byte. -/
def ofPair (b : UInt8) : List Nat := [b.toNat / 16, b.toNat % 16]

theorem ofPair_lt (b : UInt8) : ∀ n ∈ ofPair b, n < 16 := by
  have := b.toNat_lt
  simp [ofPair]
  omega

def unpair (bytes : List UInt8) : NybbleStream :=
  ⟨bytes.flatMap ofPair, fun n hn =>
    let ⟨b, _, hb⟩ := List.mem_flatMap.mp hn
    ofPair_lt b n hb⟩

/-! ## Coded packing -/

def codeOf (s : Symbol) : Except Error (List Bool) :=
  match s.code? with
  | some code => .ok code
  | none => .error (.missingCode s)

/-- The next four bits as a nybble, and the bits after them. -/
def takeNybble : List Bool → Except Error (Nat × List Bool)
  | b₀ :: b₁ :: b₂ :: b₃ :: rest => .ok (Bits.toNat [b₀, b₁, b₂, b₃], rest)
  | _ => .error .truncatedStream

/-- A number of nybbles, and the bits after them. -/
def takeNybbles : Nat → List Bool → Except Error (List Nat × List Bool)
  | 0, bits => .ok ([], bits)
  | count + 1, bits => do
    let (n, bits) ← takeNybble bits
    let (rest, bits) ← takeNybbles count bits
    return (n :: rest, bits)

/-- The nybbles of a prolog: the third one tells whether there are four more or two. -/
def takeProlog (bits : List Bool) : Except Error (List Nat × List Bool) := do
  let (first, bits) ← takeNybbles 3 bits
  let (rest, bits) ← takeNybbles (if first[2]? = some Prolog.longPpem then 4 else 2) bits
  return (first ++ rest, bits)

/-- The symbol whose code comes next, and the bits after it. -/
def takeSymbol (bits : List Bool) : Except Error (Symbol × List Bool) :=
  match codeTable.find? (fun e => e.2.isPrefixOf bits) with
  | some e => .ok (e.1, bits.drop e.2.length)
  | none => .error (if bits.length < maxCodeLength then .truncatedStream else .invalidCode)

theorem length_of_mem_codeTable : ∀ e ∈ codeTable, 0 < e.2.length := by decide

theorem takeSymbol_length {bits rest : List Bool} {s : Symbol}
    (h : takeSymbol bits = .ok (s, rest)) : rest.length < bits.length := by
  unfold takeSymbol at h
  split at h
  · rename_i e he
    have hpos := length_of_mem_codeTable e (List.mem_of_find?_eq_some he)
    have hfound : e.2.isPrefixOf bits = true := by simpa using List.find?_some he
    have hle := (List.isPrefixOf_iff_prefix.mp hfound).length_le
    cases h
    rw [List.length_drop]
    omega
  · contradiction

/-- Goes on with taking symbols after those in `met`, latest first, until one ends the body. -/
def takeSymbolsAfter (met : List Symbol) (bits : List Bool) : Except Error (List Symbol) :=
  match _h : takeSymbol bits with
  | .error e => .error e
  | .ok (s, rest) =>
    if s = .finish then .ok (s :: met).reverse else takeSymbolsAfter (s :: met) rest
termination_by bits.length
decreasing_by exact takeSymbol_length ‹_›

/-- The symbols of a coded body. Bits after the one that ends it are not looked at. -/
def takeSymbols (bits : List Bool) : Except Error (List Symbol) := takeSymbolsAfter [] bits

end Packing

namespace NybbleStream
open Packing

def packRaw (s : NybbleStream) (gray : Bool) : Except Error (List UInt8) :=
  frame gray (pairs s.nybbles)

/-- Unpacks bytes of two nybbles; what follows the end of the body is dropped. -/
def unpackRaw (bytes : List UInt8) : Except Error (Bool × NybbleStream) := do
  let (gray, body) ← unframe bytes
  let stream := unpair body
  let (_, length) ← stream.prolog
  let symbols ← stream.symbols
  return (gray, stream.take (symbols.foldl (fun n s => n + s.nybbles.length) length))

/-- The coded body of a stream, before it is filled up to a whole byte. -/
def codedBits (s : NybbleStream) : Except Error (List Bool) := do
  let (_, length) ← s.prolog
  let symbols ← s.symbols
  let codes ← symbols.mapM codeOf
  return (s.nybbles.take length).flatMap (Bits.ofNat · 4) ++ codes.flatten

/-- Packs a stream by the code table. -/
def packHuffman (s : NybbleStream) (gray : Bool) : Except Error (List UInt8) := do
  let bits ← s.codedBits
  frame gray (Bits.toBytes bits)

/-- The length of the coded body, counted without coding it. -/
def codedLength (s : NybbleStream) : Except Error Nat := do
  let (_, length) ← s.prolog
  let symbols ← s.symbols
  symbols.foldlM (fun n s => (codeOf s).map fun code => n + code.length) (4 * length)

def unpackHuffman (bytes : List UInt8) : Except Error (Bool × NybbleStream) := do
  let (gray, body) ← unframe bytes
  let (opening, bits) ← takeProlog (body.flatMap Bits.ofByte)
  let symbols ← takeSymbols bits
  let stream ← ofValues (opening ++ symbols.flatMap (·.nybbles))
  return (gray, stream)

def pack (format : Format) (s : NybbleStream) (gray : Bool) : Except Error (List UInt8) :=
  match format with
  | .huffman => s.packHuffman gray
  | .raw => s.packRaw gray

def unpack (format : Format) (bytes : List UInt8) : Except Error (Bool × NybbleStream) :=
  match format with
  | .huffman => unpackHuffman bytes
  | .raw => unpackRaw bytes

end NybbleStream

/-! ## Compressed hints of a glyph -/

structure Options where
  /-- Mark the packed stream as gray. -/
  gray : Bool
  /-- Refuse a stream that does not decode to its hints. -/
  verify : Bool
deriving DecidableEq

structure CompressedHints where
  stream : NybbleStream
  gray : Bool
deriving DecidableEq

namespace CompressedHints

def ofPhases (phases : GlyphPhases) (options : Options) : Except Error CompressedHints :=
  (phases.encode options.verify).map fun stream => ⟨stream, options.gray⟩

def unpack (format : Format) (bytes : List UInt8) : Except Error CompressedHints :=
  (NybbleStream.unpack format bytes).map fun (gray, stream) => ⟨stream, gray⟩

def pack (format : Format) (hints : CompressedHints) : Except Error (List UInt8) :=
  hints.stream.pack format hints.gray

def phases (hints : CompressedHints) : Except Error GlyphPhases := hints.stream.decode

end CompressedHints

end GlyphHints
