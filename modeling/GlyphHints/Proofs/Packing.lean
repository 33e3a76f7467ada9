import GlyphHints.Proofs.CodeTable

/-!
# Unpacking undoes packing

A header is recognized exactly by its marker and the length it states, the nybbles of a prolog
are read four bits at a time, and the symbols behind them code by code. What is unpacked is the
stream up to the symbol that ends its body: neither the zeros that fill up the last byte nor
nybbles behind that symbol come back.
-/
namespace GlyphHints

namespace Packing

/-! ## The header -/

theorem frame_eq_ok_iff {gray : Bool} {body bytes : List UInt8} :
    frame gray body = .ok bytes ↔ body.length + headerLength ≤ 65535 ∧
      bytes = headerByte :: marker gray :: UInt8.ofNat ((body.length + headerLength) / 256) ::
        UInt8.ofNat ((body.length + headerLength) % 256) :: body := by
  by_cases hlong : 65535 < body.length + headerLength
  · simp [frame, hlong, Nat.not_le.mpr hlong]
  · simp [frame, hlong, Nat.not_lt.mp hlong, eq_comm]

theorem frame_eq_error {gray : Bool} {body : List UInt8} {e : Error}
    (h : frame gray body = .error e) : e = .streamTooLong (body.length + headerLength) := by
  by_cases hlong : 65535 < body.length + headerLength
  · simp only [frame, hlong, if_true, Except.error.injEq] at h
    exact h.symm
  · simp [frame, hlong] at h

theorem marker_eq_iff {mark : UInt8} {gray : Bool} :
    ((mark = monochromeMarker ∨ mark = grayMarker) ∧ decide (mark = grayMarker) = gray) ↔
      mark = marker gray := by
  have hne : monochromeMarker ≠ grayMarker := by decide
  cases gray
  · simp only [decide_eq_false_iff_not, marker, Bool.false_eq_true, if_false]
    exact ⟨fun h => h.1.resolve_right h.2, fun h => ⟨.inl h, h ▸ hne⟩⟩
  · simp only [decide_eq_true_eq, marker, if_true]
    exact ⟨And.right, fun h => ⟨.inr h, h⟩⟩

theorem unframe_eq_ok_iff {bytes body : List UInt8} {gray : Bool} :
    unframe bytes = .ok (gray, body) ↔
      ∃ high low, bytes = headerByte :: marker gray :: high :: low :: body ∧
        256 * high.toNat + low.toNat = body.length + headerLength := by
  constructor
  · intro h
    unfold unframe at h
    split at h
    · split at h
      · rename_i first mark high low body hheader
        obtain ⟨rfl, hmark, hlength⟩ := hheader
        obtain ⟨hgray, rfl⟩ := Prod.mk.inj (Except.ok.inj h)
        exact ⟨high, low, by rw [marker_eq_iff.mp ⟨hmark, hgray⟩], hlength⟩
      · contradiction
    · contradiction
  · rintro ⟨high, low, rfl, hlength⟩
    obtain ⟨hmark, hgray⟩ := marker_eq_iff.mpr (rfl : marker gray = marker gray)
    rw [unframe, if_pos ⟨rfl, hmark, hlength⟩, hgray]

theorem unframe_eq_error {bytes : List UInt8} {e : Error} (h : unframe bytes = .error e) :
    e = .badHeader := by
  unfold unframe at h
  split at h
  · split at h
    · contradiction
    · exact (Except.error.inj h).symm
  · exact (Except.error.inj h).symm

theorem unframe_of_frame {gray : Bool} {body bytes : List UInt8}
    (h : frame gray body = .ok bytes) : unframe bytes = .ok (gray, body) := by
  obtain ⟨hlength, rfl⟩ := frame_eq_ok_iff.mp h
  refine unframe_eq_ok_iff.mpr ⟨_, _, rfl, ?_⟩
  rw [UInt8.toNat_ofNat_of_lt' (by simp [UInt8.size]; omega),
    UInt8.toNat_ofNat_of_lt' (by simp [UInt8.size]; omega), Nat.div_add_mod]

/-! ## The prolog -/

/-- Nybbles as bits, four each. -/
def ofNybbles (values : List Nat) : List Bool := values.flatMap (Bits.ofNat · 4)

theorem length_ofNybbles (values : List Nat) : (ofNybbles values).length = 4 * values.length := by
  simp [ofNybbles, List.length_flatMap, Nat.mul_comm]

variable {bits rest : List Bool}

theorem takeNybble_eq_ok_iff {n : Nat} :
    takeNybble bits = .ok (n, rest) ↔ n < 16 ∧ bits = Bits.ofNat n 4 ++ rest := by
  constructor
  · intro h
    unfold takeNybble at h
    split at h
    · rename_i b₀ b₁ b₂ b₃ rest
      obtain ⟨rfl, rfl⟩ := Prod.mk.inj (Except.ok.inj h)
      exact ⟨Bits.toNat_lt [b₀, b₁, b₂, b₃],
        congrArg (· ++ rest) (Bits.ofNat_toNat [b₀, b₁, b₂, b₃]).symm⟩
    · contradiction
  · rintro ⟨hn, rfl⟩
    have hvalue : Bits.toNat (Bits.ofNat n 4) = n := Bits.toNat_ofNat hn
    exact congrArg (fun m => Except.ok (m, rest)) hvalue

theorem takeNybble_eq_error {e : Error} (h : takeNybble bits = .error e) :
    e = .truncatedStream := by
  unfold takeNybble at h
  split at h
  · contradiction
  · exact (Except.error.inj h).symm

theorem takeNybbles_eq_ok_iff {count : Nat} {values : List Nat} :
    takeNybbles count bits = .ok (values, rest) ↔
      values.length = count ∧ (∀ n ∈ values, n < 16) ∧ bits = ofNybbles values ++ rest := by
  induction count generalizing bits values with
  | zero =>
    rw [takeNybbles, List.length_eq_zero_iff]
    constructor
    · intro h
      obtain ⟨rfl, rfl⟩ := Prod.mk.inj (Except.ok.inj h)
      exact ⟨rfl, List.forall_mem_nil _, rfl⟩
    · rintro ⟨rfl, -, rfl⟩
      rfl
  | succ count ih =>
    rw [takeNybbles]
    constructor
    · intro h
      obtain ⟨⟨n, bits⟩, hn, h⟩ := bind_eq_ok.mp h
      obtain ⟨⟨values, bits⟩, hvalues, h⟩ := bind_eq_ok.mp h
      obtain ⟨rfl, rfl⟩ := Prod.mk.inj (Except.ok.inj h)
      obtain ⟨hfirst, rfl⟩ := takeNybble_eq_ok_iff.mp hn
      obtain ⟨hlength, hlt, rfl⟩ := ih.mp hvalues
      exact ⟨congrArg (· + 1) hlength, List.forall_mem_cons.mpr ⟨hfirst, hlt⟩,
        by simp [ofNybbles]⟩
    · rintro ⟨hlength, hlt, rfl⟩
      obtain ⟨n, values, rfl⟩ := List.exists_cons_of_length_eq_add_one hlength
      obtain ⟨hn, hlt⟩ := List.forall_mem_cons.mp hlt
      refine bind_eq_ok.mpr ⟨(n, ofNybbles values ++ rest), ?_, ?_⟩
      · exact takeNybble_eq_ok_iff.mpr ⟨hn, by simp [ofNybbles]⟩
      · exact bind_eq_ok.mpr ⟨_, ih.mpr ⟨Nat.succ.inj hlength, hlt, rfl⟩, rfl⟩

theorem takeNybbles_eq_error {count : Nat} {e : Error} (h : takeNybbles count bits = .error e) :
    e = .truncatedStream := by
  induction count generalizing bits with
  | zero => contradiction
  | succ count ih =>
    rcases bind_eq_error.mp h with h | ⟨⟨n, bits⟩, -, h⟩
    · exact takeNybble_eq_error h
    · rcases bind_eq_error.mp h with h | ⟨_, -, h⟩
      · exact ih h
      · contradiction

/-- The third nybble of a prolog says how many nybbles there are. -/
theorem takeProlog_eq_ok_iff {opening : List Nat} : takeProlog bits = .ok (opening, rest) ↔
    opening.length = Prolog.span opening ∧ (∀ n ∈ opening, n < 16) ∧
      bits = ofNybbles opening ++ rest := by
  have hspan : ∀ first more : List Nat, first.length = 3 →
      Prolog.span (first ++ more) = 3 + if first[2]? = some Prolog.longPpem then 4 else 2 := by
    intro first more hfirst
    rw [Prolog.span_append (Nat.le_of_eq hfirst.symm), Prolog.span]
    split <;> rfl
  constructor
  · intro h
    obtain ⟨⟨first, bits⟩, hfirst, h⟩ := bind_eq_ok.mp h
    obtain ⟨⟨more, bits⟩, hmore, h⟩ := bind_eq_ok.mp h
    obtain ⟨rfl, rfl⟩ := Prod.mk.inj (Except.ok.inj h)
    obtain ⟨hfirstLength, hfirstLt, rfl⟩ := takeNybbles_eq_ok_iff.mp hfirst
    obtain ⟨hmoreLength, hmoreLt, rfl⟩ := takeNybbles_eq_ok_iff.mp hmore
    refine ⟨?_, List.forall_mem_append.mpr ⟨hfirstLt, hmoreLt⟩, by simp [ofNybbles]⟩
    rw [List.length_append, hspan first more hfirstLength, hfirstLength, hmoreLength]
  · rintro ⟨hlength, hlt, rfl⟩
    have hthree : 3 ≤ opening.length := by
      rw [hlength]
      exact Prolog.three_le_span opening
    have hfirstLength : (opening.take 3).length = 3 := List.length_take_of_le hthree
    have hmoreLength := hspan (opening.take 3) (opening.drop 3) hfirstLength
    rw [List.take_append_drop, ← hlength] at hmoreLength
    refine bind_eq_ok.mpr ⟨(opening.take 3, ofNybbles (opening.drop 3) ++ rest), ?_, ?_⟩
    · refine takeNybbles_eq_ok_iff.mpr
        ⟨hfirstLength, fun n hn => hlt n (List.mem_of_mem_take hn), ?_⟩
      rw [← List.append_assoc, ofNybbles, ofNybbles, ofNybbles, ← List.flatMap_append,
        List.take_append_drop]
    · refine bind_eq_ok.mpr ⟨(opening.drop 3, rest), ?_, ?_⟩
      · refine takeNybbles_eq_ok_iff.mpr ⟨?_, fun n hn => hlt n (List.mem_of_mem_drop hn), rfl⟩
        rw [List.length_drop, hmoreLength, Nat.add_sub_cancel_left]
      · exact congrArg (fun values => Except.ok (values, rest)) (List.take_append_drop 3 opening)

theorem takeProlog_eq_error {e : Error} (h : takeProlog bits = .error e) :
    e = .truncatedStream := by
  rcases bind_eq_error.mp h with h | ⟨⟨first, bits⟩, -, h⟩
  · exact takeNybbles_eq_error h
  · rcases bind_eq_error.mp h with h | ⟨_, -, h⟩
    · exact takeNybbles_eq_error h
    · contradiction

/-! ## The body -/

theorem codeOf_eq_ok_iff {s : Symbol} {code : List Bool} :
    codeOf s = .ok code ↔ s.code? = some code := by
  unfold codeOf
  split <;> simp_all

/-- The bits begin with the nybbles of a prolog and the codes of the symbols behind them, of
which the last one and no other ends the body. -/
def Codes (bits : List Bool) (values : List Nat) : Prop :=
  ∃ opening symbols codes rest, opening.length = Prolog.span opening ∧
    Symbol.Closed symbols ∧ List.Forall₂ (fun s code => s.code? = some code) symbols codes ∧
    values = opening ++ symbols.flatMap Symbol.nybbles ∧
    bits = ofNybbles opening ++ (codes.flatten ++ rest)

end Packing

namespace NybbleStream
open Packing
variable {s t : NybbleStream} {gray : Bool} {bytes : List UInt8}

theorem ofValues_eq_ok_iff {values : List Nat} : ofValues values = .ok s ↔ s.nybbles = values := by
  unfold ofValues
  split
  · rename_i bad hbad
    have hmem := List.mem_of_find?_eq_some hbad
    have hlarge : 15 < bad := by simpa using List.find?_some hbad
    simp only [reduceCtorEq, false_iff]
    rintro rfl
    exact absurd (s.nybbles_lt bad hmem) (by omega)
  · rw [Except.ok.injEq, NybbleStream.ext_iff, eq_comm]

theorem symbols_eq_ok_iff {symbols : List Symbol} : s.symbols = .ok symbols ↔
    ∃ p length, s.prolog = .ok (p, length) ∧
      Symbol.split (s.nybbles.drop length) = .ok symbols := by
  unfold NybbleStream.symbols body
  rcases s.prolog with e | ⟨p, length⟩
  · simp [Except.map, Except.bind]
  · simp [Except.map, Except.bind]

/-- What unpacking accepts, and what it gives. -/
theorem unpackHuffman_eq_ok_iff : unpackHuffman bytes = .ok (gray, t) ↔
    ∃ body, unframe bytes = .ok (gray, body) ∧ Codes (body.flatMap Bits.ofByte) t.nybbles := by
  constructor
  · intro h
    obtain ⟨⟨gray, body⟩, hbody, h⟩ := bind_eq_ok.mp h
    obtain ⟨⟨opening, bits⟩, hopening, h⟩ := bind_eq_ok.mp h
    obtain ⟨symbols, hsymbols, h⟩ := bind_eq_ok.mp h
    obtain ⟨stream, hstream, h⟩ := bind_eq_ok.mp h
    obtain ⟨rfl, rfl⟩ := Prod.mk.inj (Except.ok.inj h)
    obtain ⟨hlength, -, hbits⟩ := takeProlog_eq_ok_iff.mp hopening
    obtain ⟨hclosed, codes, rest, hcodes, rfl⟩ := takeSymbols_eq_ok_iff.mp hsymbols
    exact ⟨body, hbody, opening, symbols, codes, rest, hlength, hclosed, hcodes,
      ofValues_eq_ok_iff.mp hstream, hbits⟩
  · rintro ⟨body, hbody, opening, symbols, codes, rest, hlength, hclosed, hcodes, hvalues, hbits⟩
    have hlt : ∀ n ∈ opening, n < 16 := fun n hn =>
      t.nybbles_lt n (hvalues ▸ List.mem_append_left _ hn)
    refine bind_eq_ok.mpr ⟨_, hbody, bind_eq_ok.mpr ⟨(opening, codes.flatten ++ rest), ?_, ?_⟩⟩
    · exact takeProlog_eq_ok_iff.mpr ⟨hlength, hlt, hbits⟩
    · refine bind_eq_ok.mpr ⟨symbols, ?_, bind_eq_ok.mpr ⟨t, ?_, rfl⟩⟩
      · exact takeSymbols_eq_ok_iff.mpr ⟨hclosed, codes, rest, hcodes, rfl⟩
      · exact ofValues_eq_ok_iff.mpr hvalues

/-! ## Packing -/

theorem codedBits_eq_ok_iff {bits : List Bool} : s.codedBits = .ok bits ↔
    ∃ p length symbols codes, s.prolog = .ok (p, length) ∧
      Symbol.split (s.nybbles.drop length) = .ok symbols ∧
      List.Forall₂ (fun s code => s.code? = some code) symbols codes ∧
      bits = ofNybbles (s.nybbles.take length) ++ codes.flatten := by
  constructor
  · intro h
    obtain ⟨⟨p, length⟩, hp, h⟩ := bind_eq_ok.mp h
    obtain ⟨symbols, hsymbols, h⟩ := bind_eq_ok.mp h
    obtain ⟨codes, hcodes, h⟩ := bind_eq_ok.mp h
    obtain ⟨_, _, hp', hsplit⟩ := symbols_eq_ok_iff.mp hsymbols
    obtain ⟨rfl, rfl⟩ := Prod.mk.inj (Except.ok.inj (hp.symm.trans hp'))
    exact ⟨p, length, symbols, codes, hp, hsplit,
      (mapM_eq_ok_iff.mp hcodes).imp fun _ _ => codeOf_eq_ok_iff.mp, (Except.ok.inj h).symm⟩
  · rintro ⟨p, length, symbols, codes, hp, hsplit, hcodes, rfl⟩
    refine bind_eq_ok.mpr ⟨(p, length), hp, bind_eq_ok.mpr ⟨symbols, ?_, ?_⟩⟩
    · exact symbols_eq_ok_iff.mpr ⟨p, length, hp, hsplit⟩
    · refine bind_eq_ok.mpr ⟨codes, ?_, rfl⟩
      exact mapM_eq_ok_iff.mpr (hcodes.imp fun _ _ => codeOf_eq_ok_iff.mpr)

/-- The bits of a coded body, whatever follows them, are those of the stream up to the symbol
that ends it. -/
theorem codes_of_codedBits {p : Prolog} {length : Nat} {symbols : List Symbol} {bits : List Bool}
    (h : s.codedBits = .ok bits) (hp : s.prolog = .ok (p, length))
    (hsplit : Symbol.split (s.nybbles.drop length) = .ok symbols) (rest : List Bool) :
    Codes (bits ++ rest) (s.nybbles.take (length + (symbols.flatMap Symbol.nybbles).length)) := by
  obtain ⟨_, _, _, codes, hp', hsplit', hcodes, rfl⟩ := codedBits_eq_ok_iff.mp h
  obtain ⟨rfl, rfl⟩ := Prod.mk.inj (Except.ok.inj (hp.symm.trans hp'))
  obtain rfl := Except.ok.inj (hsplit.symm.trans hsplit')
  obtain ⟨hclosed, -, behind, hbody⟩ := Symbol.split_eq_ok_iff.mp hsplit
  obtain ⟨hspan, hle⟩ := Prolog.read_eq_ok hp
  have hlength : (s.nybbles.take length).length = length := List.length_take_of_le hle
  refine ⟨s.nybbles.take length, symbols, codes, rest, ?_, hclosed, hcodes, ?_, by simp⟩
  · have hthree : 3 ≤ (s.nybbles.take length).length := by
      rw [hlength, hspan]
      exact Prolog.three_le_span s.nybbles
    rw [hlength, ← Prolog.span_append hthree (s.nybbles.drop length), List.take_append_drop,
      ← hspan]
  · rw [List.take_add, hbody, List.take_left]

theorem unpackHuffman_eq_take {p : Prolog} {length : Nat} {symbols : List Symbol}
    (h : s.packHuffman gray = .ok bytes) (hp : s.prolog = .ok (p, length))
    (hsplit : Symbol.split (s.nybbles.drop length) = .ok symbols) :
    unpackHuffman bytes =
      .ok (gray, s.take (length + (symbols.flatMap Symbol.nybbles).length)) := by
  obtain ⟨bits, hbits, hframe⟩ := bind_eq_ok.mp h
  obtain ⟨n, -, hbytes⟩ := Bits.flatMap_ofByte_toBytes bits
  refine unpackHuffman_eq_ok_iff.mpr ⟨Bits.toBytes bits, unframe_of_frame hframe, ?_⟩
  rw [hbytes]
  exact codes_of_codedBits hbits hp hsplit _

/-- Unpacking gives back what was packed, up to the first opcode 15 met on taking the body
behind the prolog opcode by opcode. -/
theorem unpackHuffman_packHuffman (s : NybbleStream) (gray : Bool) {bytes : List UInt8}
    (h : s.packHuffman gray = .ok bytes) :
    ∃ p length n, s.prolog = .ok (p, length) ∧ Symbol.EndsAfter n (s.nybbles.drop length) ∧
      unpackHuffman bytes = .ok (gray, s.take (length + n)) ∧
      (length + n = s.length → unpackHuffman bytes = .ok (gray, s)) := by
  obtain ⟨bits, hbits, -⟩ := bind_eq_ok.mp h
  obtain ⟨p, length, symbols, -, hp, hsplit, -⟩ := codedBits_eq_ok_iff.mp hbits
  have hunpack := unpackHuffman_eq_take h hp hsplit
  obtain ⟨hclosed, hframed, rest, hbody⟩ := Symbol.split_eq_ok_iff.mp hsplit
  refine ⟨p, length, _, hp, ?_, hunpack, fun hwhole => ?_⟩
  · rw [hbody]
    exact Symbol.endsAfter_of_closed hclosed hframed rest
  · have htake : s.take (length + (symbols.flatMap Symbol.nybbles).length) = s :=
      NybbleStream.ext (List.take_of_length_le (Nat.le_of_eq hwhole.symm))
    rw [hunpack, htake]

/-- A stream of nearly all kinds of instructions. Two nybbles follow the one that ends it. -/
def documented : NybbleStream :=
  ⟨[0, 7, 5, 0, 4, 1, 2, 3, 3, 4, 0, 2, 8, 13, 13, 1, 7, 0, 3, 5, 5, 13, 14, 1, 1, 4, 15, 4, 6, 2,
    3, 9, 9, 1, 6, 0, 3, 5, 9, 4, 15, 4, 0, 2, 2, 8, 4, 1, 8, 15, 3, 15], by decide⟩

def documentedBytes : List UInt8 :=
  [0x7F, 0xF7, 0x00, 0x1A, 0x07, 0x50, 0x46, 0x47, 0xDC, 0x5D, 0xB2, 0x1B, 0x5B, 0x4F, 0xD4, 0x52,
    0x80, 0xA2, 0xA1, 0x6D, 0x88, 0xF7, 0xB6, 0xE5, 0xBD, 0x40]

theorem packHuffman_documented : documented.packHuffman true = .ok documentedBytes := by
  decide +kernel

theorem unpackHuffman_packHuffman_documented :
    documented.packHuffman true = .ok documentedBytes ∧
      ∃ p length n, documented.prolog = .ok (p, length) ∧
        Symbol.EndsAfter n (documented.nybbles.drop length) ∧
        unpackHuffman documentedBytes = .ok (true, documented.take (length + n)) ∧
        (length + n = documented.length → unpackHuffman documentedBytes = .ok (true, documented)) :=
  ⟨packHuffman_documented, unpackHuffman_packHuffman documented true packHuffman_documented⟩

end NybbleStream

end GlyphHints
