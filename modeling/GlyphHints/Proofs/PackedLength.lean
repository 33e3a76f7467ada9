import GlyphHints.Proofs.Unpacking
import Mathlib.Algebra.Ring.Nat

/-!
# How long a packed stream is

Counting the bits of a coded body and coding it fail on the same streams, for the same reason.
Where they succeed the count alone decides the rest: behind the header stand as many bytes as
its bits fill, the last of them filled up with zeros, and a stream is too long exactly if the
header cannot state that length.
-/
namespace GlyphHints

theorem Bits.length_toBytes (bits : List Bool) : (toBytes bits).length = (bits.length + 7) / 8 := by
  obtain ⟨n, hn, hbytes⟩ := flatMap_ofByte_toBytes bits
  have hlength := congrArg List.length hbytes
  rw [length_flatMap_ofByte, List.length_append, List.length_replicate] at hlength
  omega

namespace Packing
variable {gray : Bool} {body bytes : List UInt8}

theorem frame_isOk_iff :
    (∃ bytes, frame gray body = .ok bytes) ↔ body.length + headerLength ≤ 65535 := by
  simp only [frame_eq_ok_iff, exists_and_left, exists_eq, and_true]

theorem frame_of_lt (h : 65535 < body.length + headerLength) :
    frame gray body = .error (.streamTooLong (body.length + headerLength)) := if_pos h

/-- The header states the length of the whole in its last two bytes. -/
theorem statesLength_of_frame (h : frame gray body = .ok bytes) :
    bytes.length = body.length + headerLength ∧ bytes.drop headerLength = body ∧
      ∃ high low, bytes[2]? = some high ∧ bytes[3]? = some low ∧
        256 * high.toNat + low.toNat = bytes.length := by
  obtain ⟨high, low, rfl, hlength⟩ := unframe_eq_ok_iff.mp (unframe_of_frame h)
  exact ⟨rfl, rfl, high, low, rfl, rfl, hlength⟩

end Packing

namespace NybbleStream
open Packing
variable {s : NybbleStream} {gray : Bool} {bytes : List UInt8} {n : Nat}

/-- The bits that were counted are those that are packed. -/
theorem packHuffman_eq_frame (gray : Bool) (h : s.codedLength = .ok n) :
    ∃ bits, s.codedBits = .ok bits ∧ bits.length = n ∧
      s.packHuffman gray = frame gray (Bits.toBytes bits) := by
  rw [codedLength_eq] at h
  obtain ⟨bits, hbits, hn⟩ := map_eq_ok.mp h
  refine ⟨bits, hbits, hn, ?_⟩
  rw [packHuffman, hbits]
  rfl

theorem packHuffman_of_codedLength_eq_error {e : Error} (h : s.codedLength = .error e) :
    s.packHuffman gray = .error e := by
  rw [codedLength_eq] at h
  exact bind_eq_error.mpr (.inl (map_eq_error.mp h))

/-- What is counted: four bits for each nybble of the prolog, and the codes of the symbols of
the body up to the one that ends it. -/
theorem codedLength_eq_sum (h : s.codedLength = .ok n) :
    ∃ p length symbols codes rest, s.prolog = .ok (p, length) ∧ Symbol.Closed symbols ∧
      s.nybbles.drop length = symbols.flatMap Symbol.nybbles ++ rest ∧
      List.Forall₂ (fun x code => x.code? = some code) symbols codes ∧
      n = 4 * length + (codes.map List.length).sum := by
  rw [codedLength_eq] at h
  obtain ⟨bits, hbits, rfl⟩ := map_eq_ok.mp h
  obtain ⟨p, length, symbols, codes, hp, hsplit, hcodes, rfl⟩ := codedBits_eq_ok_iff.mp hbits
  obtain ⟨hclosed, -, rest, hbody⟩ := Symbol.split_eq_ok_iff.mp hsplit
  refine ⟨p, length, symbols, codes, rest, hp, hclosed, hbody, hcodes, ?_⟩
  rw [List.length_append, length_ofNybbles, List.length_flatten,
    List.length_take_of_le (Prolog.read_eq_ok hp).2]

/-- Packing fails as counting does, and otherwise depends on the count alone: there are as many
bytes as its bits fill, behind a header that states their number with its own four, and only
zeros behind its bits. -/
theorem packHuffman_length (s : NybbleStream) (gray : Bool) :
    (∀ e, s.codedLength = .error e → s.packHuffman gray = .error e) ∧
      ∀ n, s.codedLength = .ok n →
        (∃ p length symbols codes rest, s.prolog = .ok (p, length) ∧ Symbol.Closed symbols ∧
          s.nybbles.drop length = symbols.flatMap Symbol.nybbles ++ rest ∧
          List.Forall₂ (fun x code => x.code? = some code) symbols codes ∧
          n = 4 * length + (codes.map List.length).sum) ∧
        ((∃ bytes, s.packHuffman gray = .ok bytes) ↔ 4 + (n + 7) / 8 ≤ 65535) ∧
        (∀ bytes, s.packHuffman gray = .ok bytes →
          bytes.length = 4 + (n + 7) / 8 ∧
          (∃ high low, bytes[2]? = some high ∧ bytes[3]? = some low ∧
            256 * high.toNat + low.toNat = bytes.length) ∧
          ∀ b ∈ (bodyBits bytes).drop n, b = false) ∧
        (65535 < 4 + (n + 7) / 8 →
          s.packHuffman gray = .error (.streamTooLong (4 + (n + 7) / 8))) := by
  refine ⟨fun e => packHuffman_of_codedLength_eq_error, fun n hn => ?_⟩
  obtain ⟨bits, -, hlength, hpack⟩ := packHuffman_eq_frame gray hn
  have hbody : (Bits.toBytes bits).length + headerLength = 4 + (n + 7) / 8 := by
    rw [Bits.length_toBytes, hlength, headerLength, Nat.add_comm]
  refine ⟨codedLength_eq_sum hn, ?_, fun bytes hbytes => ?_, fun hlong => ?_⟩
  · rw [hpack, ← hbody]
    exact frame_isOk_iff
  · obtain ⟨hsize, hdrop, hstated⟩ := statesLength_of_frame (hpack.symm.trans hbytes)
    refine ⟨hsize.trans hbody, hstated, ?_⟩
    obtain ⟨padding, -, hbits⟩ := Bits.flatMap_ofByte_toBytes bits
    rw [bodyBits, hdrop, hbits, ← hlength, List.drop_left]
    exact fun b => List.eq_of_mem_replicate
  · rw [hpack, ← hbody]
    exact frame_of_lt (hbody ▸ hlong)

theorem packHuffman_length_documented :
    documented.codedLength = .ok 170 ∧ (∃ bytes, documented.packHuffman true = .ok bytes) ∧
      ∀ bytes, documented.packHuffman true = .ok bytes →
        bytes.length = 26 ∧
        (∃ high low, bytes[2]? = some high ∧ bytes[3]? = some low ∧
          256 * high.toNat + low.toNat = bytes.length) ∧
        ∀ b ∈ (bodyBits bytes).drop 170, b = false := by
  have hcount : documented.codedLength = .ok 170 := by decide +kernel
  obtain ⟨-, hpack, hbytes, -⟩ := (packHuffman_length documented true).2 170 hcount
  exact ⟨hcount, hpack.mpr (by decide), hbytes⟩

end NybbleStream

end GlyphHints
