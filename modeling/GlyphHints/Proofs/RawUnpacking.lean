import GlyphHints.Proofs.RawPacking

/-!
# Raw unpacking finds the end

Bytes of two nybbles do not tell how many nybbles there were, so unpacking looks for the end of
the body. A zero that fills up the last byte is not taken for it and does not complete anything
either: a prolog has an odd number of nybbles, and no instruction that zero begins or completes
ends a program.
-/
namespace GlyphHints

/-- A front of a list with one more value is a front of the list, unless it is all of it. -/
theorem eq_or_exists_of_append_singleton {α : Type} {l front rest : List α} {a : α}
    (h : l ++ [a] = front ++ rest) : front = l ++ [a] ∨ ∃ between, l = front ++ between := by
  cases rest using List.reverseRecOn with
  | nil => exact .inl (by rw [h, List.append_nil])
  | append_singleton between b =>
    rw [← List.append_assoc] at h
    exact .inr ⟨between, List.append_inj_left' h rfl⟩

/-- A prolog has an odd number of nybbles, so one more does not complete it behind an odd number
of them. -/
theorem Prolog.read_of_append_zero {values : List Nat} {p : Prolog} {n : Nat}
    (hodd : values.length % 2 = 1) (h : read (values ++ [0]) = .ok (p, n)) :
    read values = .ok (p, n) := by
  obtain ⟨opening, rest, hsplit, hlength, hspan, hmore⟩ := exists_of_read h
  rcases eq_or_exists_of_append_singleton hsplit with hwhole | ⟨between, hvalues⟩
  · have heven : opening.length % 2 = 0 := by
      rw [hwhole, List.length_append, List.length_singleton]
      omega
    have hspan : span opening % 2 = 1 := by
      unfold span
      split <;> decide
    omega
  · rw [hvalues]
    exact hmore between

/-- A body ends with 15, so a zero does not complete it. -/
theorem Symbol.split_of_append_zero {body : List Nat} {symbols : List Symbol}
    (h : split (body ++ [0]) = .ok symbols) : split body = .ok symbols := by
  obtain ⟨hclosed, hframed, rest, hbody⟩ := split_eq_ok_iff.mp h
  refine split_eq_ok_iff.mpr ⟨hclosed, hframed, ?_⟩
  rcases eq_or_exists_of_append_singleton hbody with hwhole | hfront
  · obtain ⟨before, rfl, -⟩ := closed_iff.mp hclosed
    rw [List.flatMap_append, List.flatMap_singleton] at hwhole
    have hlast := List.append_inj_right' hwhole rfl
    contradiction
  · exact hfront

namespace Packing

/-- The nybbles behind the header. -/
def bodyNybbles (bytes : List UInt8) : List Nat := (bytes.drop headerLength).flatMap ofPair

theorem length_flatMap_ofPair (bytes : List UInt8) :
    (bytes.flatMap ofPair).length = 2 * bytes.length := by
  simp [ofPair, List.length_flatMap, Nat.mul_comm]

theorem length_pairs (s : NybbleStream) : (pairs s.nybbles).length = (s.length + 1) / 2 := by
  have hlength := congrArg List.length (flatMap_ofPair_pairs s)
  rw [length_flatMap_ofPair, List.length_append, List.length_replicate] at hlength
  unfold NybbleStream.length at *
  omega

end Packing

namespace NybbleStream
open Packing
variable {s t : NybbleStream} {gray : Bool} {bytes : List UInt8} {symbols : List Symbol}

/-- A stream that cannot be taken apart cannot be taken apart with its last byte filled up. -/
theorem symbols_eq_ok_of_padding (ht : t.nybbles = s.nybbles ++ List.replicate (s.length % 2) 0)
    (h : t.symbols = .ok symbols) : s.symbols = .ok symbols := by
  obtain ⟨p, length, hp, hsplit⟩ := symbols_eq_ok_iff.mp h
  rcases Nat.mod_two_eq_zero_or_one s.length with heven | hodd
  · rw [heven, List.replicate_zero, List.append_nil] at ht
    exact NybbleStream.ext ht ▸ h
  · rw [hodd, List.replicate_one] at ht
    rw [prolog, ht] at hp
    have hprolog := Prolog.read_of_append_zero hodd hp
    rw [ht, List.drop_append_of_le_length (Prolog.read_eq_ok hprolog).2] at hsplit
    exact symbols_eq_ok_iff.mpr ⟨p, length, hprolog, Symbol.split_of_append_zero hsplit⟩

theorem exists_packRaw (s : NybbleStream) (gray : Bool)
    (h : (s.length + 1) / 2 + headerLength ≤ 65535) : ∃ bytes, s.packRaw gray = .ok bytes ∧
      bytes[1]? = some (marker gray) ∧ bytes.length = (s.length + 1) / 2 + headerLength ∧
      bodyNybbles bytes = s.nybbles ++ List.replicate (s.length % 2) 0 := by
  have hlength := length_pairs s
  refine ⟨_, frame_eq_ok_iff.mpr ⟨hlength ▸ h, rfl⟩, rfl, ?_, flatMap_ofPair_pairs s⟩
  rw [← hlength]
  rfl

/-- Where raw unpacking finds an end, there is one. -/
theorem unpackRaw_eq_error (h : s.packRaw gray = .ok bytes) {e : Error}
    (he : s.symbols = .error e) : ∃ e', unpackRaw bytes = .error e' := by
  cases hunpack : unpackRaw bytes with
  | error e' => exact ⟨e', rfl⟩
  | ok r =>
    obtain ⟨body, p, length, symbols, hbody, hp, hsplit, -⟩ := unpackRaw_eq_ok_iff.mp hunpack
    obtain ⟨-, rfl⟩ := Prod.mk.inj (Except.ok.inj (hbody.symm.trans (unframe_of_frame h)))
    have hsymbols := symbols_eq_ok_of_padding (flatMap_ofPair_pairs s)
      (symbols_eq_ok_iff.mpr ⟨p, length, hp, hsplit⟩)
    rw [he] at hsymbols
    contradiction

/-- What was unpacked is the front of the nybbles behind the header, and it is packed into no
more bytes. -/
theorem exists_packRaw_of_unpackRaw (h : unpackRaw bytes = .ok (gray, s)) :
    ∃ packed, s.packRaw gray = .ok packed ∧ packed[1]? = bytes[1]? ∧
      packed.length ≤ bytes.length ∧
      bodyNybbles packed =
        (bodyNybbles bytes).take s.length ++ List.replicate (s.length % 2) 0 := by
  obtain ⟨body, p, length, symbols, hbody, -, -, rfl⟩ := unpackRaw_eq_ok_iff.mp h
  obtain ⟨high, low, rfl, hlength⟩ := unframe_eq_ok_iff.mp hbody
  set k := length + (symbols.flatMap Symbol.nybbles).length
  have hfront : ((unpair body).take k).nybbles <+: body.flatMap ofPair := List.take_prefix k _
  have hle := hfront.length_le
  rw [length_flatMap_ofPair] at hle
  change ((unpair body).take k).length ≤ 2 * body.length at hle
  have hhigh := high.toNat_lt
  have hlow := low.toNat_lt
  obtain ⟨packed, hpacked, hmark, hpackedLength, hnybbles⟩ :=
    exists_packRaw ((unpair body).take k) gray (by omega)
  refine ⟨packed, hpacked, hmark, ?_, ?_⟩
  · simp only [hpackedLength, headerLength, List.length_cons]
    omega
  · exact hnybbles.trans (congrArg (· ++ _) (List.prefix_iff_eq_take.mp hfront))

/-- Raw packing gives back a stream up to the first opcode 15 met on taking its body opcode by
opcode, and an error if there is none. A stream that was unpacked is packed into the same nybbles
and a zero if they are odd. Whatever both formats can pack comes back from both alike. -/
theorem unpackRaw_spec :
    (∀ (s : NybbleStream) (gray : Bool), 4 + (s.length + 1) / 2 ≤ 65535 →
      ∃ bytes, s.packRaw gray = .ok bytes ∧
        (∀ symbols, s.symbols = .ok symbols → ∃ p length n, s.prolog = .ok (p, length) ∧
          Symbol.EndsAfter n (s.nybbles.drop length) ∧
          unpackRaw bytes = .ok (gray, s.take (length + n))) ∧
        ∀ e, s.symbols = .error e → ∃ e', unpackRaw bytes = .error e') ∧
    (∀ (bytes : List UInt8) (gray : Bool) (s : NybbleStream), unpackRaw bytes = .ok (gray, s) →
      ∃ packed, s.packRaw gray = .ok packed ∧ packed[1]? = bytes[1]? ∧
        packed.length ≤ bytes.length ∧
        bodyNybbles packed =
          (bodyNybbles bytes).take s.length ++ List.replicate (s.length % 2) 0) ∧
    ∀ (s : NybbleStream) (gray : Bool) (coded bytes : List UInt8),
      s.packHuffman gray = .ok coded → s.packRaw gray = .ok bytes →
        ∃ t, unpackHuffman coded = .ok (gray, t) ∧ unpackRaw bytes = .ok (gray, t) := by
  refine ⟨fun s gray hfits => ?_, fun bytes gray s h => exists_packRaw_of_unpackRaw h, ?_⟩
  · rw [Nat.add_comm] at hfits
    obtain ⟨bytes, hpack, -⟩ := exists_packRaw s gray hfits
    refine ⟨bytes, hpack, fun symbols hsymbols => ?_, fun e he => unpackRaw_eq_error hpack he⟩
    obtain ⟨p, length, hp, hsplit⟩ := symbols_eq_ok_iff.mp hsymbols
    have hends := Symbol.endsAfter_of_split hsplit
    exact ⟨p, length, _, hp, hends, unpackRaw_eq_take hpack hp hsplit⟩
  · intro s gray coded bytes hcoded hraw
    obtain ⟨bits, hbits, -⟩ := bind_eq_ok.mp hcoded
    obtain ⟨p, length, symbols, -, hp, hsplit, -⟩ := codedBits_eq_ok_iff.mp hbits
    exact ⟨_, unpackHuffman_eq_take hcoded hp hsplit, unpackRaw_eq_take hraw hp hsplit⟩

/-- A body that a zero goes on with, but does not end. -/
def unfinished : NybbleStream := ⟨[3, 0, 0, 0, 0, 8, 2], by decide⟩

/-- The program without hints in raw nybbles, with others behind its end. -/
def trailing : List UInt8 := [0x7F, 0xF6, 0x00, 0x0A, 0x30, 0x00, 0x0E, 0xF5, 0x12, 0x34]

theorem unpackRaw_spec_noHints :
    (∃ bytes, unfinished.packRaw true = .ok bytes ∧ ∃ e, unpackRaw bytes = .error e) ∧
    (∃ bytes p length n, noHints.packRaw false = .ok bytes ∧
      noHints.prolog = .ok (p, length) ∧ Symbol.EndsAfter n (noHints.nybbles.drop length) ∧
      unpackRaw bytes = .ok (false, noHints.take (length + n))) ∧
    (unpackRaw trailing = .ok (false, noHints) ∧ ∃ packed, noHints.packRaw false = .ok packed ∧
      packed[1]? = trailing[1]? ∧ packed.length ≤ trailing.length ∧
      bodyNybbles packed =
        (bodyNybbles trailing).take noHints.length ++ List.replicate (noHints.length % 2) 0) ∧
    ∃ t, unpackHuffman [0x7F, 0xF6, 0x00, 0x08, 0x30, 0x00, 0x09, 0xD4] = .ok (false, t) ∧
      unpackRaw [0x7F, 0xF6, 0x00, 0x08, 0x30, 0x00, 0x0E, 0xF0] = .ok (false, t) := by
  obtain ⟨hround, hagain, hboth⟩ := unpackRaw_spec
  have htrailing : unpackRaw trailing = .ok (false, noHints) := by decide +kernel
  have hsymbols : noHints.symbols = .ok [.bare 14, .bare 15] := by decide
  refine ⟨?_, ?_, ⟨htrailing, hagain trailing false noHints htrailing⟩, ?_⟩
  · obtain ⟨bytes, hbytes, -, herror⟩ := hround unfinished true (by decide)
    exact ⟨bytes, hbytes, herror .truncatedStream (by decide)⟩
  · obtain ⟨bytes, hbytes, hok, -⟩ := hround noHints false (by decide)
    obtain ⟨p, length, n, h⟩ := hok _ hsymbols
    exact ⟨bytes, p, length, n, hbytes, h⟩
  · exact hboth noHints false _ _ (by decide +kernel) (by decide +kernel)

end NybbleStream

end GlyphHints
