import GlyphHints.Proofs.Packing

/-!
# What unpacking accepts

Unpacking accepts the bytes with a proper header whose body begins with a prolog and codes up to
one that ends it, and fails on the others in one of two ways: the header is bad, or the body ends
too early. What it gives can be packed again unless the granularity is none, and packing it
leaves out at most what stood behind its end.
-/
namespace GlyphHints

namespace Packing

/-- The bits behind the header. -/
def bodyBits (bytes : List UInt8) : List Bool := (bytes.drop headerLength).flatMap Bits.ofByte

/-- There is no header, one of its first two bytes is not as it should be, or the length it
states is not that of the whole. -/
def BadlyHeaded (bytes : List UInt8) : Prop :=
  bytes.length < headerLength ∨ bytes[0]? ≠ some 0x7F ∨
    (bytes[1]? ≠ some 0xF6 ∧ bytes[1]? ≠ some 0xF7) ∨
    256 * (bytes.getD 2 0).toNat + (bytes.getD 3 0).toNat ≠ bytes.length

theorem unframe_eq_error_iff {bytes : List UInt8} :
    unframe bytes = .error .badHeader ↔ BadlyHeaded bytes := by
  match bytes with
  | [] | [_] | [_, _] | [_, _, _] => simp [unframe, BadlyHeaded, headerLength]
  | first :: mark :: high :: low :: body =>
    have hlength : ¬ (first :: mark :: high :: low :: body).length < headerLength := by
      simp [headerLength]
    simp only [BadlyHeaded, hlength, false_or, unframe, ite_eq_right_iff, reduceCtorEq, imp_false]
    simp [headerByte, monochromeMarker, grayMarker, headerLength]
    tauto

theorem exists_unframe_eq_ok {bytes : List UInt8} (h : ¬ BadlyHeaded bytes) :
    ∃ gray, unframe bytes = .ok (gray, bytes.drop headerLength) := by
  cases hu : unframe bytes with
  | error e => exact absurd (unframe_eq_error_iff.mp (unframe_eq_error hu ▸ hu)) h
  | ok u =>
    obtain ⟨gray, body⟩ := u
    obtain ⟨high, low, rfl, -⟩ := unframe_eq_ok_iff.mp hu
    exact ⟨gray, rfl⟩

/-- Symbols that have codes are well-formed nybbles. -/
theorem framed_of_codes {symbols : List Symbol} {codes : List (List Bool)}
    (h : List.Forall₂ (fun s code => s.code? = some code) symbols codes) :
    ∀ s ∈ symbols, s.IsFramed ∧ ∀ n ∈ s.nybbles, n < 16 := by
  induction h with
  | nil => exact List.forall_mem_nil _
  | cons hcode _ ih =>
    exact List.forall_mem_cons.mpr
      ⟨framed_of_mem_codeTable _ (Symbol.code?_eq_some_iff.mp hcode), ih⟩

end Packing

namespace NybbleStream
open Packing
variable {s : NybbleStream} {gray : Bool} {bytes : List UInt8}

/-! ## Failing -/

/-- Nybbles and coded symbols make a stream, so only reading the bytes fails. -/
theorem unpackHuffman_eq_error {e : Error} (h : unpackHuffman bytes = .error e) :
    unframe bytes = .error e ∨ e = .truncatedStream := by
  rcases bind_eq_error.mp h with h | ⟨⟨gray, body⟩, -, h⟩
  · exact .inl h
  · rcases bind_eq_error.mp h with h | ⟨⟨opening, bits⟩, hopening, h⟩
    · exact .inr (takeProlog_eq_error h)
    · rcases bind_eq_error.mp h with h | ⟨symbols, hsymbols, h⟩
      · exact .inr (takeSymbolsAfter_eq_error h)
      · obtain ⟨-, hlt, -⟩ := takeProlog_eq_ok_iff.mp hopening
        obtain ⟨-, codes, rest, hcodes, -⟩ := takeSymbols_eq_ok_iff.mp hsymbols
        have hvalues : ∀ n ∈ opening ++ symbols.flatMap Symbol.nybbles, n < 16 := by
          refine List.forall_mem_append.mpr ⟨hlt, fun n hn => ?_⟩
          obtain ⟨s, hs, hn⟩ := List.mem_flatMap.mp hn
          exact (framed_of_codes hcodes s hs).2 n hn
        have hstream := ofValues_eq_ok_iff.mpr (rfl : (⟨_, hvalues⟩ : NybbleStream).nybbles = _)
        rw [hstream] at h
        contradiction

theorem unpackHuffman_eq_badHeader_iff :
    unpackHuffman bytes = .error .badHeader ↔ BadlyHeaded bytes := by
  rw [← unframe_eq_error_iff]
  refine ⟨fun h => (unpackHuffman_eq_error h).resolve_right (by decide), fun h => ?_⟩
  exact bind_eq_error.mpr (.inl h)

/-! ## Packing again -/

theorem codedLength_eq : s.codedLength = s.codedBits.map List.length := by
  have hfold : ∀ (symbols : List Symbol) (n : Nat),
      symbols.foldlM (fun n s => (codeOf s).map fun code => n + code.length) n =
        (symbols.mapM codeOf).map fun codes => n + codes.flatten.length := by
    intro symbols
    induction symbols with
    | nil => intro n; rfl
    | cons s symbols ih =>
      intro n
      rw [List.foldlM_cons, List.mapM_cons]
      cases codeOf s with
      | error e => rfl
      | ok code =>
        refine (ih (n + code.length)).trans ?_
        cases symbols.mapM codeOf with
        | error e => rfl
        | ok codes => exact congrArg Except.ok (by simp [Nat.add_assoc])
  unfold codedLength codedBits
  cases hp : s.prolog with
  | error e => rfl
  | ok q =>
    obtain ⟨p, length⟩ := q
    cases s.symbols with
    | error e => rfl
    | ok symbols =>
      refine (hfold symbols (4 * length)).trans ?_
      change _ = ((symbols.mapM codeOf) >>= fun codes =>
        .ok (ofNybbles (s.nybbles.take length) ++ codes.flatten)).map List.length
      have hlength : (s.nybbles.take length).length = length :=
        List.length_take_of_le (Prolog.read_eq_ok hp).2
      have hbits := length_ofNybbles (s.nybbles.take length)
      rw [hlength] at hbits
      cases symbols.mapM codeOf with
      | error e => rfl
      | ok codes =>
        refine congrArg Except.ok ?_
        rw [List.length_append, hbits]

/-- Bits that code a stream begin with the bits it is coded by. -/
theorem exists_codedBits {bits : List Bool} {granularity : Nat} (h : Codes bits s.nybbles)
    (hfirst : s.nybbles.head? = some granularity) (hg : granularity ≤ maxDeltaShift) :
    ∃ coded, s.codedBits = .ok coded ∧ coded <+: bits := by
  obtain ⟨opening, symbols, codes, rest, hlength, hclosed, hcodes, hvalues, rfl⟩ := h
  have hspan : Prolog.span s.nybbles = opening.length := by
    rw [hvalues, Prolog.span_of_length hlength]
  obtain ⟨values, hcons⟩ := List.head?_eq_some_iff.mp hfirst
  have hle : opening.length ≤ s.nybbles.length := by simp [hvalues]
  obtain ⟨p, hp⟩ := Prolog.exists_read_eq_ok hg (hcons ▸ hspan ▸ hle)
  rw [← hcons, hspan] at hp
  refine ⟨ofNybbles opening ++ codes.flatten, ?_, rest, by simp⟩
  refine codedBits_eq_ok_iff.mpr ⟨p, opening.length, symbols, codes, hp, ?_, hcodes, ?_⟩
  · refine Symbol.split_eq_ok_iff.mpr ⟨hclosed, fun s hs => (framed_of_codes hcodes s hs).1, [], ?_⟩
    rw [hvalues, List.drop_left, List.append_nil]
  · rw [hvalues, List.take_left]

/-- What was unpacked packs into the same bits, and zeros instead of what followed them. -/
theorem exists_packHuffman {granularity : Nat} (h : unpackHuffman bytes = .ok (gray, s))
    (hfirst : s.nybbles.head? = some granularity) (hg : granularity ≤ maxDeltaShift) :
    ∃ packed coded, s.packHuffman gray = .ok packed ∧ s.codedBits = .ok coded ∧
      packed.length ≤ bytes.length ∧ packed.take 2 = bytes.take 2 ∧ coded <+: bodyBits bytes ∧
      ∃ n, bodyBits packed = coded ++ List.replicate n false := by
  obtain ⟨body, hbody, hcodes⟩ := unpackHuffman_eq_ok_iff.mp h
  obtain ⟨coded, hcoded, hprefix⟩ := exists_codedBits hcodes hfirst hg
  obtain ⟨high, low, rfl, hlength⟩ := unframe_eq_ok_iff.mp hbody
  obtain ⟨n, hn, hbytes⟩ := Bits.flatMap_ofByte_toBytes coded
  have hshort : (Bits.toBytes coded).length ≤ body.length := by
    have hle := hprefix.length_le
    have hpacked := congrArg List.length hbytes
    rw [Bits.length_flatMap_ofByte] at hle hpacked
    rw [List.length_append, List.length_replicate] at hpacked
    omega
  have hhigh := high.toNat_lt
  have hlow := low.toNat_lt
  have hframe := frame_eq_ok_iff.mpr ⟨(by omega :
    (Bits.toBytes coded).length + headerLength ≤ 65535), (rfl : _ = _ :: marker gray :: _)⟩
  exact ⟨_, coded, bind_eq_ok.mpr ⟨coded, hcoded, hframe⟩, hcoded, by simpa using hshort, rfl,
    hprefix, n, hbytes⟩

/-- Bytes are unpacked exactly if they have a header and code a stream. A bad header is told
from a body that ends too early, and there is no other failure. A stream that was unpacked, if
its granularity is one, is packed into no more bytes than it came from, with the same header
but for the length, the same coded bits, and zeros behind them. -/
theorem unpackHuffman_spec (bytes : List UInt8) :
    (unpackHuffman bytes = .error .badHeader ↔ BadlyHeaded bytes) ∧
      (¬ BadlyHeaded bytes →
        (∀ gray s, unpackHuffman bytes = .ok (gray, s) ↔
          bytes[1]? = some (marker gray) ∧ Codes (bodyBits bytes) s.nybbles) ∧
        ∀ e, unpackHuffman bytes = .error e → e = .truncatedStream) ∧
      ∀ gray s granularity, unpackHuffman bytes = .ok (gray, s) →
        s.nybbles.head? = some granularity → granularity ≤ maxDeltaShift →
        ∃ packed n, s.packHuffman gray = .ok packed ∧ packed.length ≤ bytes.length ∧
          packed.take 2 = bytes.take 2 ∧ s.codedLength = .ok n ∧
          n ≤ (bodyBits packed).length ∧ n ≤ (bodyBits bytes).length ∧
          (bodyBits packed).take n = (bodyBits bytes).take n ∧
          ∀ b ∈ (bodyBits packed).drop n, b = false := by
  refine ⟨unpackHuffman_eq_badHeader_iff, fun hheader => ⟨fun gray s => ?_, fun e he => ?_⟩, ?_⟩
  · obtain ⟨flag, hflag⟩ := exists_unframe_eq_ok hheader
    obtain ⟨high, low, hbytes, -⟩ := unframe_eq_ok_iff.mp hflag
    have hmark : bytes[1]? = some (marker flag) := by
      rw [hbytes]
      rfl
    have hgray : some (marker flag) = some (marker gray) ↔ flag = gray := by
      cases flag <;> cases gray <;> decide
    rw [unpackHuffman_eq_ok_iff, hmark, hgray, hflag]
    constructor
    · rintro ⟨body, hbody, hcodes⟩
      obtain ⟨rfl, rfl⟩ := Prod.mk.inj (Except.ok.inj hbody)
      exact ⟨rfl, hcodes⟩
    · rintro ⟨rfl, hcodes⟩
      exact ⟨_, rfl, hcodes⟩
  · refine (unpackHuffman_eq_error he).resolve_left fun hframe => hheader ?_
    exact unframe_eq_error_iff.mp (unframe_eq_error hframe ▸ hframe)
  · intro gray s granularity h hfirst hg
    obtain ⟨packed, coded, hpacked, hcoded, hlength, hmark, ⟨rest, hrest⟩, n, hbits⟩ :=
      exists_packHuffman h hfirst hg
    refine ⟨packed, coded.length, hpacked, hlength, hmark, ?_, ?_, ?_, ?_, ?_⟩
    · rw [codedLength_eq, hcoded]
      rfl
    · simp [hbits]
    · simp [← hrest]
    · rw [hbits, ← hrest, List.take_left, List.take_left]
    · rw [hbits, List.drop_left]
      exact fun b => List.eq_of_mem_replicate

/-- The program without hints in one byte too many, with a few bits behind its end. -/
def overlong : List UInt8 := [0x7F, 0xF6, 0x00, 0x09, 0x30, 0x00, 0x09, 0xD5, 0xA5]

theorem unpackHuffman_overlong : unpackHuffman overlong = .ok (false, noHints) :=
  unpackHuffman_eq_ok_iff.mpr ⟨[0x30, 0x00, 0x09, 0xD5, 0xA5], by decide, [3, 0, 0, 0, 0],
    [.bare 14, .bare 15], [Bits.ofNat 0b10011 5, Bits.ofNat 0b10101 5], Bits.ofNat 0b0110100101 10,
    by decide, .cons (by decide) .finish, .cons (by decide) (.cons (by decide) .nil), rfl,
    by decide⟩

theorem unpackHuffman_spec_overlong :
    unpackHuffman overlong = .ok (false, noHints) ∧
      ∃ packed n, noHints.packHuffman false = .ok packed ∧ packed.length ≤ overlong.length ∧
        packed.take 2 = overlong.take 2 ∧ noHints.codedLength = .ok n ∧
        n ≤ (bodyBits packed).length ∧ n ≤ (bodyBits overlong).length ∧
        (bodyBits packed).take n = (bodyBits overlong).take n ∧
        ∀ b ∈ (bodyBits packed).drop n, b = false :=
  ⟨unpackHuffman_overlong,
    (unpackHuffman_spec overlong).2.2 false noHints 3 unpackHuffman_overlong rfl (by decide)⟩

end NybbleStream

end GlyphHints
