import GlyphHints.Proofs.Packing

/-!
# Raw packing

Nybbles packed two to a byte come back with a zero behind an odd number of them. It stands behind
the end of the body, where unpacking cuts it off, so both formats give back the same stream.
-/
namespace GlyphHints

namespace Packing

theorem ofPair_ofNat {high low : Nat} (hhigh : high < 16) (hlow : low < 16) :
    ofPair (UInt8.ofNat (16 * high + low)) = [high, low] := by
  rw [ofPair, UInt8.toNat_ofNat_of_lt' (by simp [UInt8.size]; omega)]
  have hdiv : (16 * high + low) / 16 = high := by omega
  have hmod : (16 * high + low) % 16 = low := by omega
  rw [hdiv, hmod]

/-- A zero fills up the last byte of an odd number of nybbles. -/
theorem flatMap_ofPair_pairsAfter (done : List UInt8) {nybbles : List Nat}
    (h : ∀ n ∈ nybbles, n < 16) : (pairsAfter done nybbles).flatMap ofPair =
      done.reverse.flatMap ofPair ++ (nybbles ++ List.replicate (nybbles.length % 2) 0) := by
  induction done, nybbles using pairsAfter.induct with
  | case1 done high low rest ih =>
    obtain ⟨hhigh, h⟩ := List.forall_mem_cons.mp h
    obtain ⟨hlow, h⟩ := List.forall_mem_cons.mp h
    have hparity : (high :: low :: rest).length % 2 = rest.length % 2 := Nat.add_mod_right _ 2
    rw [pairsAfter, ih h, List.reverse_cons, List.flatMap_append, List.flatMap_singleton,
      ofPair_ofNat hhigh hlow, hparity]
    simp
  | case2 done high =>
    have hlast := ofPair_ofNat (h high List.mem_cons_self) (by decide : 0 < 16)
    rw [Nat.add_zero] at hlast
    rw [pairsAfter, List.reverse_cons, List.flatMap_append, List.flatMap_singleton, hlast]
    rfl
  | case3 done => simp [pairsAfter]

theorem flatMap_ofPair_pairs (s : NybbleStream) : (pairs s.nybbles).flatMap ofPair =
    s.nybbles ++ List.replicate (s.length % 2) 0 :=
  flatMap_ofPair_pairsAfter [] s.nybbles_lt

end Packing

namespace NybbleStream
open Packing
variable {s : NybbleStream} {gray : Bool} {bytes : List UInt8} {p : Prolog} {length : Nat}
  {symbols : List Symbol}

/-- What follows the end of a body changes neither prolog nor symbols. -/
theorem prolog_and_split_of_append {t : NybbleStream} {padding : List Nat}
    (ht : t.nybbles = s.nybbles ++ padding) (hp : s.prolog = .ok (p, length))
    (hsplit : Symbol.split (s.nybbles.drop length) = .ok symbols) :
    t.prolog = .ok (p, length) ∧ Symbol.split (t.nybbles.drop length) = .ok symbols := by
  obtain ⟨hclosed, hframed, behind, hbody⟩ := Symbol.split_eq_ok_iff.mp hsplit
  constructor
  · rw [prolog, ht]
    exact Prolog.read_append hp padding
  · rw [ht, List.drop_append_of_le_length (Prolog.read_eq_ok hp).2]
    exact Symbol.split_eq_ok_iff.mpr ⟨hclosed, hframed, behind ++ padding, by rw [hbody]; simp⟩

theorem foldl_length (symbols : List Symbol) (n : Nat) :
    symbols.foldl (fun n s => n + s.nybbles.length) n =
      n + (symbols.flatMap Symbol.nybbles).length := by
  induction symbols generalizing n with
  | nil => rfl
  | cons s symbols ih =>
    rw [List.foldl_cons, ih, List.flatMap_cons, List.length_append, Nat.add_assoc]

/-- What raw unpacking accepts, and what it gives. -/
theorem unpackRaw_eq_ok_iff {t : NybbleStream} : unpackRaw bytes = .ok (gray, t) ↔
    ∃ body p length symbols, unframe bytes = .ok (gray, body) ∧
      (unpair body).prolog = .ok (p, length) ∧
      Symbol.split ((unpair body).nybbles.drop length) = .ok symbols ∧
      t = (unpair body).take (length + (symbols.flatMap Symbol.nybbles).length) := by
  constructor
  · intro h
    obtain ⟨⟨_, body⟩, hbody, h⟩ := bind_eq_ok.mp h
    obtain ⟨⟨p, length⟩, hp, h⟩ := bind_eq_ok.mp h
    obtain ⟨symbols, hsymbols, h⟩ := bind_eq_ok.mp h
    obtain ⟨rfl, rfl⟩ := Prod.mk.inj (Except.ok.inj h)
    obtain ⟨_, _, hp', hsplit⟩ := symbols_eq_ok_iff.mp hsymbols
    obtain ⟨rfl, rfl⟩ := Prod.mk.inj (Except.ok.inj (hp.symm.trans hp'))
    exact ⟨body, p, length, symbols, hbody, hp, hsplit, by rw [foldl_length]⟩
  · rintro ⟨body, p, length, symbols, hbody, hp, hsplit, rfl⟩
    have hsymbols := symbols_eq_ok_iff.mpr ⟨p, length, hp, hsplit⟩
    rw [← foldl_length]
    exact bind_eq_ok.mpr ⟨_, hbody, bind_eq_ok.mpr ⟨_, hp, bind_eq_ok.mpr ⟨_, hsymbols, rfl⟩⟩⟩

theorem length_split_le (hp : s.prolog = .ok (p, length))
    (hsplit : Symbol.split (s.nybbles.drop length) = .ok symbols) :
    length + (symbols.flatMap Symbol.nybbles).length ≤ s.length := by
  obtain ⟨-, -, behind, hbody⟩ := Symbol.split_eq_ok_iff.mp hsplit
  have hlength := congrArg List.length hbody
  have hread := (Prolog.read_eq_ok hp).2
  rw [List.length_drop, List.length_append] at hlength
  unfold NybbleStream.length
  omega

theorem unpackRaw_eq_take (h : s.packRaw gray = .ok bytes) (hp : s.prolog = .ok (p, length))
    (hsplit : Symbol.split (s.nybbles.drop length) = .ok symbols) :
    unpackRaw bytes = .ok (gray, s.take (length + (symbols.flatMap Symbol.nybbles).length)) := by
  have hpadding : (unpair (pairs s.nybbles)).nybbles = _ := flatMap_ofPair_pairs s
  obtain ⟨hprolog, hsymbols⟩ := prolog_and_split_of_append hpadding hp hsplit
  refine unpackRaw_eq_ok_iff.mpr
    ⟨_, p, length, symbols, unframe_of_frame h, hprolog, hsymbols, NybbleStream.ext ?_⟩
  change s.nybbles.take _ = (unpair (pairs s.nybbles)).nybbles.take _
  rw [hpadding, List.take_append_of_le_length (length_split_le hp hsplit)]

/-- In either format a stream comes back up to the symbol that ends its body. -/
theorem unpack_eq_take {format : Format} (h : s.pack format gray = .ok bytes)
    (hp : s.prolog = .ok (p, length))
    (hsplit : Symbol.split (s.nybbles.drop length) = .ok symbols) :
    unpack format bytes =
      .ok (gray, s.take (length + (symbols.flatMap Symbol.nybbles).length)) := by
  cases format with
  | huffman => exact unpackHuffman_eq_take h hp hsplit
  | raw => exact unpackRaw_eq_take h hp hsplit

/-- A stream whose body is written in instructions comes back as a whole. -/
theorem unpack_eq_of_body {format : Format} {is : List Instruction}
    (h : s.pack format gray = .ok bytes) (hp : s.prolog = .ok (p, length))
    (hbody : s.nybbles.drop length = Instruction.writeAll (is ++ [.finish]))
    (hfinish : .finish ∉ is) : unpack format bytes = .ok (gray, s) := by
  have hsplit := Instruction.split_writeAll hfinish []
  rw [List.append_nil, ← hbody] at hsplit
  rw [unpack_eq_take h hp hsplit, Instruction.flatMap_nybbles_symbol, ← hbody]
  refine congrArg (fun t => Except.ok (gray, t)) (NybbleStream.ext (List.take_of_length_le ?_))
  rw [List.length_drop]
  omega

end NybbleStream

end GlyphHints
