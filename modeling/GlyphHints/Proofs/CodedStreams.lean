import GlyphHints.Proofs.Unpacking
import GlyphHints.Proofs.Vocabulary
import GlyphHints.Proofs.Walkers

/-!
# Coded streams are well-formed

Every symbol that has a code is an instruction, and none of them changes the delta base. So the
body of a stream that was unpacked by the code table reads instruction by instruction up to its
end. What can still be wrong with it is its granularity, and a delta shift that it leads out of
its range.
-/
namespace GlyphHints

/-! ## Symbols that have codes -/

/-- Each symbol of the table is read as an instruction. -/
theorem read_of_mem_codeTable : ∀ e ∈ codeTable,
    ∃ r ∈ (Instruction.read e.1.nybbles).toOption, r.1.symbol = e.1 ∧ r.1.isBaseChange = false := by
  decide +kernel

theorem length_le_of_mem_codeTable : ∀ e ∈ codeTable, e.1.nybbles.length ≤ e.2.length := by
  decide +kernel

namespace Packing
variable {symbols : List Symbol} {codes : List (List Bool)}

theorem exists_instructions (h : List.Forall₂ (fun s code => s.code? = some code) symbols codes) :
    ∃ is : List Instruction, symbols = is.map Instruction.symbol ∧
      ∀ i ∈ is, i.isBaseChange = false := by
  induction h with
  | nil => exact ⟨[], rfl, List.forall_mem_nil _⟩
  | @cons s code symbols codes hcode _ ih =>
    obtain ⟨is, rfl, hbase⟩ := ih
    have hmem := Symbol.code?_eq_some_iff.mp hcode
    obtain ⟨r, -, hsymbol, hchange⟩ := read_of_mem_codeTable _ hmem
    exact ⟨r.1 :: is, congrArg (· :: _) hsymbol.symm, List.forall_mem_cons.mpr ⟨hchange, hbase⟩⟩

theorem length_nybbles_le (h : List.Forall₂ (fun s code => s.code? = some code) symbols codes) :
    (symbols.flatMap Symbol.nybbles).length ≤ codes.flatten.length := by
  induction h with
  | nil => exact Nat.le_refl 0
  | @cons s code symbols codes hcode _ ih =>
    have hfirst := length_le_of_mem_codeTable _ (Symbol.code?_eq_some_iff.mp hcode)
    rw [List.flatMap_cons, List.flatten_cons, List.length_append, List.length_append]
    exact Nat.add_le_add hfirst ih

/-- A code takes no less bits than the nybbles it stands for are many. -/
theorem Codes.length_le {bits : List Bool} {values : List Nat} (h : Codes bits values) :
    values.length ≤ bits.length := by
  obtain ⟨opening, symbols, codes, rest, -, -, hcodes, rfl, rfl⟩ := h
  have hsymbols := length_nybbles_le hcodes
  have hopening := length_ofNybbles opening
  simp only [List.length_append]
  omega

end Packing

/-! ## Programs -/

namespace NybbleStream

/-- The prolog of a stream is all there, and the instructions `is` and the one that ends the
program follow it. -/
structure HasProgram (s : NybbleStream) (is : List Instruction) : Prop where
  span_le : Prolog.span s.nybbles ≤ s.length
  body : s.nybbles.drop (Prolog.span s.nybbles) = Instruction.writeAll (is ++ [.finish])
  finish_not_mem : Instruction.finish ∉ is

/-- The first nybble of a stream is no granularity. -/
def IsGranularityError (s : NybbleStream) (e : Error) : Prop :=
  ∃ g, s.nybbles.head? = some g ∧ 7 ≤ g ∧ g ≤ 15 ∧ e = .invalidGranularity g

namespace HasProgram
variable {s : NybbleStream} {is : List Instruction} {p : Prolog} {n : Nat} {e : Error}

theorem of_body (hp : s.prolog = .ok (p, n))
    (hbody : s.nybbles.drop n = Instruction.writeAll (is ++ [.finish])) (hfinish : .finish ∉ is) :
    s.HasProgram is := by
  obtain ⟨rfl, hle⟩ := Prolog.read_eq_ok hp
  exact ⟨hle, hbody, hfinish⟩

theorem walk_ofBody (h : s.HasProgram is) :
    Walk.ofBody (s.nybbles.drop (Prolog.span s.nybbles)) = ⟨is ++ [.finish], none⟩ := by
  have hwalk := Walk.ofBody_writeAll_finish h.finish_not_mem []
  rwa [List.append_nil, ← h.body] at hwalk

theorem walk (h : s.HasProgram is) (hp : s.prolog = .ok (p, n)) :
    s.walk = .ok ⟨is ++ [.finish], none⟩ := by
  obtain ⟨rfl, -⟩ := Prolog.read_eq_ok hp
  exact walk_of_body hp h.body h.finish_not_mem

theorem symbols (h : s.HasProgram is) (hp : s.prolog = .ok (p, n)) :
    s.symbols = .ok ((is ++ [Instruction.finish]).map Instruction.symbol) :=
  symbols_of_walk (h.walk hp)

theorem prolog_eq_error_iff (h : s.HasProgram is) :
    s.prolog = .error e ↔ s.IsGranularityError e := by
  have hspan := h.span_le
  unfold prolog NybbleStream.length at *
  constructor
  · intro herror
    cases hvalues : s.nybbles with
    | nil =>
      rw [hvalues] at hspan
      contradiction
    | cons g rest =>
      have hg := s.nybbles_lt g (hvalues ▸ List.mem_cons_self)
      rw [hvalues] at hspan herror
      by_cases hle : g ≤ maxDeltaShift
      · obtain ⟨p, hp⟩ := Prolog.exists_read_eq_ok hle hspan
        rw [hp] at herror
        contradiction
      · have hlarge : maxDeltaShift < g := Nat.lt_of_not_le hle
        rw [Prolog.read_of_lt hlarge] at herror
        exact ⟨g, hvalues ▸ rfl, hlarge, Nat.le_of_lt_succ hg, (Except.error.inj herror).symm⟩
  · rintro ⟨g, hg, hlow, -, rfl⟩
    obtain ⟨rest, hrest⟩ := List.head?_eq_some_iff.mp hg
    rw [hrest]
    exact Prolog.read_of_lt hlow rest

theorem symbols_eq_error_iff (h : s.HasProgram is) :
    s.symbols = .error e ↔ s.IsGranularityError e := by
  rw [← h.prolog_eq_error_iff]
  cases hp : s.prolog with
  | error e => simp [NybbleStream.symbols, NybbleStream.body, hp, Except.map, Except.bind]
  | ok r => simp [h.symbols hp]

theorem exists_listing (h : s.HasProgram is) (hp : s.prolog = .ok (p, n)) :
    ∃ text, s.listing = .ok text := exists_listing_iff.mpr ⟨_, h.walk hp⟩

theorem listing_eq_error_iff (h : s.HasProgram is) :
    s.listing = .error e ↔ s.IsGranularityError e := by
  rw [← h.prolog_eq_error_iff]
  cases hp : s.prolog with
  | error e => simp [listing, listingLines, hp, Except.map, bind, Except.bind]
  | ok r =>
    obtain ⟨text, htext⟩ := h.exists_listing hp
    simp [htext]

end HasProgram

end NybbleStream

/-- What is coded is a prolog with a program behind it that leaves the delta base alone. -/
theorem Packing.Codes.exists_program {bits : List Bool} {s : NybbleStream}
    (h : Codes bits s.nybbles) :
    ∃ is, s.HasProgram is ∧ ∀ i ∈ is, i.isBaseChange = false := by
  obtain ⟨opening, symbols, codes, rest, hlength, hclosed, hcodes, hvalues, -⟩ := h
  obtain ⟨before, rfl, hbefore⟩ := Symbol.closed_iff.mp hclosed
  obtain ⟨all, hall, hbase⟩ := exists_instructions hcodes
  obtain ⟨is, last, rfl, rfl, hlast⟩ := List.map_eq_append_iff.mp hall.symm
  obtain ⟨i, rfl, hi⟩ := List.map_eq_singleton_iff.mp hlast
  obtain rfl := Instruction.symbol_eq_finish.mp hi
  have hspan : Prolog.span s.nybbles = opening.length := by
    rw [hvalues, Prolog.span_of_length hlength]
  refine ⟨is, ⟨?_, ?_, ?_⟩, fun i hi => hbase i (List.mem_append_left _ hi)⟩
  · rw [hspan, NybbleStream.length, hvalues, List.length_append]
    exact Nat.le_add_right _ _
  · rw [hspan, hvalues, List.drop_left, ← Instruction.flatMap_nybbles_symbol, ← hall]
  · intro hmem
    exact hbefore (List.mem_map.mpr ⟨.finish, hmem, rfl⟩)

/-! ## Decoding -/

/-- An instruction of a program that is obeyed up to there leads the delta shift out of the range
from 0 to 6. -/
inductive Replay.LeavesDeltaShift (r : Replay) (is : List Instruction) : Error → Prop
  | above {before : List Instruction} {t : Replay} :
      before ++ [.misc .incrementDeltaShift] <+: is → r.run before = .ok t →
        t.machine.deltaShift = 6 → LeavesDeltaShift r is (.invalidOperand 6 2)
  | below {before : List Instruction} {t : Replay} :
      before ++ [.misc .decrementDeltaShift] <+: is → r.run before = .ok t →
        t.machine.deltaShift = 0 → LeavesDeltaShift r is (.invalidOperand 6 3)

namespace NybbleStream
open Packing
variable {s : NybbleStream} {is : List Instruction} {gray : Bool} {bytes : List UInt8}

/-- A program that leaves the delta base alone can be wrong about the delta shift only. -/
theorem HasProgram.leavesDeltaShift (h : s.HasProgram is) (hlength : s.length < 2 ^ 20)
    (hbase : ∀ i ∈ is, i.isBaseChange = false) {p : Prolog} {n : Nat} {e : Error}
    (hp : s.prolog = .ok (p, n)) (he : s.decode = .error e) :
    (Replay.start p.base).LeavesDeltaShift (is ++ [.finish]) e := by
  have hwalk := h.walk hp
  rcases exists_of_decode_eq_error he with he | ⟨p', n', walk, hp', hwalk', he⟩
  · rw [hp] at he
    contradiction
  obtain ⟨rfl, rfl⟩ := Prod.mk.inj (Except.ok.inj (hp.symm.trans hp'))
  obtain rfl := Except.ok.inj (hwalk.symm.trans hwalk')
  rcases he with hfault | ⟨before, i, r, hfront, hrun, hstep⟩
  · contradiction
  obtain ⟨m, rfl, hrefuses, rfl⟩ := refuses_of_step hlength hp hwalk hfront hrun hstep
  cases hrefuses with
  | finest hfinest =>
    have hbefore := (List.prefix_append before _).trans hfront
    have hranged := ranged_of_walk hlength hp hwalk hbefore hrun
    exact .above hfront hrun (Nat.le_antisymm hranged.deltaShift hfinest)
  | coarsest hcoarsest => exact .below hfront hrun hcoarsest
  | lowest =>
    have hmem := hfront.subset (List.mem_append_right before List.mem_cons_self)
    have his := (List.mem_append.mp hmem).resolve_right (by decide)
    exact absurd (hbase _ his) (by decide)

theorem length_lt_of_unpackHuffman (h : unpackHuffman bytes = .ok (gray, s)) :
    s.length < 2 ^ 20 := by
  obtain ⟨body, hbody, hcodes⟩ := unpackHuffman_eq_ok_iff.mp h
  obtain ⟨high, low, -, hlength⟩ := unframe_eq_ok_iff.mp hbody
  have hle := hcodes.length_le
  rw [Bits.length_flatMap_ofByte] at hle
  have hhigh := high.toNat_lt
  have hlow := low.toNat_lt
  unfold length
  omega

/-- A stream that was unpacked by the code table is a prolog and instructions up to the one that
ends the program. Listing, splitting and counting it fail exactly if its first nybble is no
granularity, and decoding it then or if the delta shift is led out of its range. -/
theorem unpackHuffman_wellFormed (h : unpackHuffman bytes = .ok (gray, s)) :
    (∃ is, s.HasProgram is ∧
      Walk.ofBody (s.nybbles.drop (Prolog.span s.nybbles)) = ⟨is ++ [.finish], none⟩) ∧
    (∀ e, s.listing = .error e ↔ s.IsGranularityError e) ∧
    (∀ e, s.symbols = .error e ↔ s.IsGranularityError e) ∧
    (∀ t e, SplitTally.accumulate t s = .error e ↔ s.IsGranularityError e) ∧
    (∀ t e, FusedTally.accumulate t s = .error e ↔ s.IsGranularityError e) ∧
    ∀ e, s.decode = .error e → s.IsGranularityError e ∨
      ∃ p n is, s.prolog = .ok (p, n) ∧ s.walk = .ok ⟨is, none⟩ ∧
        (Replay.start p.base).LeavesDeltaShift is e := by
  have hlength := length_lt_of_unpackHuffman h
  obtain ⟨body, -, hcodes⟩ := unpackHuffman_eq_ok_iff.mp h
  obtain ⟨is, hprogram, hbase⟩ := hcodes.exists_program
  refine ⟨⟨is, hprogram, hprogram.walk_ofBody⟩, fun e => hprogram.listing_eq_error_iff,
    fun e => hprogram.symbols_eq_error_iff, fun t e => ?_, fun t e => ?_, fun e he => ?_⟩
  · exact map_eq_error.trans hprogram.symbols_eq_error_iff
  · exact map_eq_error.trans hprogram.symbols_eq_error_iff
  · cases hp : s.prolog with
    | error e' =>
      have he' : e' = e := by
        have hdecode : s.decode = .error e' := bind_eq_error.mpr (.inl hp)
        exact Except.error.inj (hdecode.symm.trans he)
      exact .inl (hprogram.prolog_eq_error_iff.mp (he' ▸ hp))
    | ok r =>
      obtain ⟨p, n⟩ := r
      exact .inr ⟨p, n, _, rfl, hprogram.walk hp, hprogram.leavesDeltaShift hlength hbase hp he⟩

/-- A program that makes the delta shift coarser once too often. -/
def lowering : NybbleStream :=
  ⟨[3, 8, 0, 0, 0, 6, 3, 6, 3, 8, 6, 3, 6, 3, 13, 15], by decide⟩

def loweringBytes : List UInt8 :=
  [0x7F, 0xF6, 0x00, 0x0D, 0x38, 0x00, 0x08, 0x36, 0x0D, 0x78, 0x36, 0x0D, 0xD5]

theorem decode_lowering : lowering.decode = .error (.invalidOperand 6 3) := by decide +kernel

theorem unpackHuffman_lowering : unpackHuffman loweringBytes = .ok (false, lowering) := by
  have hpack : lowering.packHuffman false = .ok loweringBytes := by decide +kernel
  have hsplit : Symbol.split (lowering.nybbles.drop 5) = .ok [.fused 6 3, .fused 6 3, .bare 8,
    .fused 6 3, .fused 6 3, .bare 13, .bare 15] := by decide
  exact unpackHuffman_eq_take hpack rfl hsplit

theorem unpackHuffman_wellFormed_lowering :
    unpackHuffman loweringBytes = .ok (false, lowering) ∧
      lowering.decode = .error (.invalidOperand 6 3) ∧
      (∃ is, lowering.HasProgram is ∧ Walk.ofBody
        (lowering.nybbles.drop (Prolog.span lowering.nybbles)) = ⟨is ++ [.finish], none⟩) ∧
      (∀ e, lowering.listing = .error e ↔ lowering.IsGranularityError e) ∧
      ∃ p n is, lowering.prolog = .ok (p, n) ∧ lowering.walk = .ok ⟨is, none⟩ ∧
        (Replay.start p.base).LeavesDeltaShift is (.invalidOperand 6 3) := by
  have hspec := unpackHuffman_wellFormed unpackHuffman_lowering
  have hdecode := hspec.2.2.2.2.2 _ decode_lowering
  refine ⟨unpackHuffman_lowering, decode_lowering, hspec.1, hspec.2.1, hdecode.resolve_left ?_⟩
  rintro ⟨g, -, -, -, h⟩
  contradiction

end NybbleStream

end GlyphHints
