import GlyphHints.Proofs.Unpacking
import GlyphHints.Proofs.Walkers

/-!
# Streams that are cut or continued

A stream that is cut behind an instruction it has obeyed, and ended there, decodes to what has
been recorded so far. So the maps grow instruction by instruction: by a hint at most, and only at
a delta. What follows the end of a program is not seen by anything that reads the stream.
-/
namespace GlyphHints

theorem Prolog.read_take_append {values : List Nat} {p : Prolog} {n : Nat}
    (h : read values = .ok (p, n)) (more : List Nat) :
    read (values.take n ++ more) = .ok (p, n) := by
  obtain ⟨opening, rest, rfl, rfl, -, hread⟩ := exists_of_read h
  rw [List.take_left]
  exact hread more

/-! ## What an instruction records -/

theorem PhaseMap.size_of_insert {m n : PhaseMap} {axis : Axis} {h : Hint}
    (hn : m.insert axis h = .ok n) :
    n.size = m.size + if m.contains axis h then 0 else 1 := by
  by_cases hmem : (axis, h) ∈ m.entries
  · have hsame : n = m := by
      apply eq_of_mem_iff
      intro e
      rw [mem_of_insert hn]
      exact or_iff_right_of_imp fun he => he ▸ hmem
    rw [hsame, contains, decide_eq_true hmem]
    rfl
  · have hperm : n.entries.Perm ((axis, h) :: m.entries) := by
      apply (List.perm_ext_iff_of_nodup n.nodup (List.nodup_cons.mpr ⟨hmem, m.nodup⟩)).mpr
      intro e
      rw [mem_of_insert hn, List.mem_cons]
    rw [size, hperm.length_eq, contains, decide_eq_false hmem]
    rfl

/-- What becomes of the recorded phases at an instruction that a machine obeys. -/
def Machine.Records (s : Machine) (past next : GlyphPhases) : Instruction → Prop
  | .delta kind => next.pre = past.pre ∧
      (∀ e, e ∈ next.post.entries ↔ e = (s.axis, s.hint kind) ∨ e ∈ past.post.entries) ∧
      next.post.size = past.post.size + if past.post.contains s.axis (s.hint kind) then 0 else 1
  | .rtgah => next = ⟨some past.post, .empty⟩
  | _ => next = past

namespace Replay
variable {r t : Replay} {is : List Instruction}

theorem records_of_step {i : Instruction} (h : r.step i = .ok t) :
    r.machine.Records r.phases t.phases i := by
  cases i with
  | delta kind =>
    obtain ⟨post, hpost, h⟩ := bind_eq_ok.mp h
    obtain ⟨machine, -, h⟩ := bind_eq_ok.mp h
    cases h
    exact ⟨rfl, fun e => PhaseMap.mem_of_insert hpost, PhaseMap.size_of_insert hpost⟩
  | rtgah | reset | setAutoIncrement | setRepeat | addPpem | addPoint | setShift | misc | finish =>
    obtain ⟨machine, -, h⟩ := bind_eq_ok.mp h
    cases h
    rfl

theorem run_concat {i : Instruction} :
    r.run (is ++ [i]) = .ok t ↔ ∃ u, r.run is = .ok u ∧ u.step i = .ok t := by
  unfold run
  rw [List.foldlM_append, bind_eq_ok]
  simp only [List.foldlM_cons, List.foldlM_nil, bind_pure]

end Replay

/-! ## Cuts -/

namespace NybbleStream
variable {s : NybbleStream} {p : Prolog} {n : Nat} {w : Walk} {before : List Instruction}
  {r : Replay} {phases : GlyphPhases}

/-- The first nybbles of a stream, and the opcode that ends a program behind them. -/
def endedAt (s : NybbleStream) (n : Nat) : NybbleStream :=
  ⟨s.nybbles.take n ++ [15], fun m hm => (List.mem_append.mp hm).elim
    (fun hm => s.nybbles_lt m (List.mem_of_mem_take hm)) (by simp +contextual)⟩

def append (s t : NybbleStream) : NybbleStream :=
  ⟨s.nybbles ++ t.nybbles, fun m hm =>
    (List.mem_append.mp hm).elim (s.nybbles_lt m) (t.nybbles_lt m)⟩

/-- A cut behind an instruction leaves the instructions in front of it. -/
theorem walk_endedAt (hp : s.prolog = .ok (p, n)) (hw : s.walk = .ok w)
    (hfront : before <+: w.instructions) (hfinish : .finish ∉ before) :
    (s.endedAt (n + (Instruction.writeAll before).length)).prolog = .ok (p, n) ∧
      (s.endedAt (n + (Instruction.writeAll before).length)).walk =
        .ok ⟨before ++ [.finish], none⟩ := by
  obtain ⟨_, _, hp', rfl⟩ := walk_eq_ok_iff.mp hw
  cases hp.symm.trans hp'
  obtain ⟨later, hlater⟩ := hfront
  obtain ⟨rest, hbody⟩ := (Walk.meets_ofBody (s.nybbles.drop n)).exists_rest
  rw [← hlater, Instruction.writeAll_append, List.append_assoc] at hbody
  have hcut : (s.endedAt (n + (Instruction.writeAll before).length)).nybbles =
      s.nybbles.take n ++ Instruction.writeAll (before ++ [.finish]) := by
    change s.nybbles.take (n + (Instruction.writeAll before).length) ++ [15] = _
    rw [List.take_add, hbody, List.take_left, Instruction.writeAll_append, List.append_assoc]
    rfl
  have hprolog : (s.endedAt (n + (Instruction.writeAll before).length)).prolog = .ok (p, n) := by
    rw [prolog, hcut]
    exact Prolog.read_take_append hp _
  have hlength : (s.nybbles.take n).length = n :=
    List.length_take_of_le (Prolog.read_eq_ok hp).2
  refine ⟨hprolog, walk_of_body hprolog ?_ hfinish⟩
  rw [hcut]
  exact List.drop_left' hlength

theorem decode_endedAt (hp : s.prolog = .ok (p, n)) (hw : s.walk = .ok w)
    (hfront : before <+: w.instructions) (hfinish : .finish ∉ before)
    (hrun : (Replay.start p.base).run before = .ok r) :
    (s.endedAt (n + (Instruction.writeAll before).length)).decode = .ok r.phases := by
  obtain ⟨hprolog, hwalk⟩ := walk_endedAt hp hw hfront hfinish
  exact decode_eq_ok_iff.mpr ⟨p, n, _, r, hprolog, hwalk, Replay.run_concat.mpr ⟨r, hrun, rfl⟩, rfl⟩

/-! ## Tails -/

theorem prolog_append (hp : s.prolog = .ok (p, n)) (t : NybbleStream) :
    (s.append t).prolog = .ok (p, n) := Prolog.read_append hp t.nybbles

/-- A program that is read to its end is read so whatever follows it. -/
theorem walk_append {is : List Instruction} (hw : s.walk = .ok ⟨is, none⟩) (t : NybbleStream) :
    (s.append t).walk = .ok ⟨is, none⟩ := by
  obtain ⟨p, n, before, rest, hp, his, hbefore, hbody⟩ := walk_eq_complete_iff.mp hw
  refine walk_eq_complete_iff.mpr ⟨p, n, before, rest ++ t.nybbles, prolog_append hp t, his,
    hbefore, ?_⟩
  rw [append, List.drop_append_of_le_length (Prolog.read_eq_ok hp).2, hbody, List.append_assoc]

theorem codedBits_append {symbols : List Symbol} (hp : s.prolog = .ok (p, n))
    (hsymbols : s.symbols = .ok symbols) {t : NybbleStream}
    (happend : (s.append t).symbols = .ok symbols) : (s.append t).codedBits = s.codedBits := by
  have htake : (s.append t).nybbles.take n = s.nybbles.take n :=
    List.take_append_of_le_length (Prolog.read_eq_ok hp).2
  simp only [codedBits, prolog_append hp t, hp, happend, hsymbols, bind, Except.bind, htake]

/-- Cut behind any instruction that it obeys and ended there, a stream decodes to the maps that
have been recorded up to it; the next instruction adds a hint, turns to the second phase or leaves
them alone. A stream that is decoded is decoded, split, counted and packed in the same way
whatever follows it. -/
theorem decode_incremental (s : NybbleStream) :
    (∀ p n w before r, s.prolog = .ok (p, n) → s.walk = .ok w → before <+: w.instructions →
      .finish ∉ before → (Replay.start p.base).run before = .ok r →
        (s.endedAt (n + (Instruction.writeAll before).length)).decode = .ok r.phases ∧
        ∀ i t, before ++ [i] <+: w.instructions → i ≠ .finish → r.step i = .ok t →
          ∃ next, (s.endedAt (n + (Instruction.writeAll (before ++ [i])).length)).decode =
            .ok next ∧ r.machine.Records r.phases next i) ∧
    ∀ phases, s.decode = .ok phases → ∀ t : NybbleStream,
      (s.append t).decode = .ok phases ∧ (s.append t).symbols = s.symbols ∧
      (s.append t).splitTally = s.splitTally ∧ (s.append t).fusedTally = s.fusedTally ∧
      (s.append t).codedLength = s.codedLength ∧
      ∀ gray, (s.append t).packHuffman gray = s.packHuffman gray := by
  constructor
  · intro p n w before r hp hw hfront hfinish hrun
    refine ⟨decode_endedAt hp hw hfront hfinish hrun, fun i t hnext hi hstep => ?_⟩
    have hnone : Instruction.finish ∉ before ++ [i] := by
      simpa using ⟨hfinish, hi.symm⟩
    have hrun' := Replay.run_concat.mpr ⟨r, hrun, hstep⟩
    exact ⟨t.phases, decode_endedAt hp hw hnext hnone hrun', Replay.records_of_step hstep⟩
  · intro phases hdecode t
    obtain ⟨p, n, is, r, hp, hw, hrun, rfl⟩ := decode_eq_ok_iff.mp hdecode
    have happend := walk_append hw t
    have hsymbols : (s.append t).symbols = s.symbols :=
      (symbols_of_walk happend).trans (symbols_of_walk hw).symm
    have hbits := codedBits_append hp (symbols_of_walk hw) (symbols_of_walk happend)
    refine ⟨?_, hsymbols, ?_, ?_, ?_, fun gray => ?_⟩
    · exact decode_eq_ok_iff.mpr ⟨p, n, is, r, prolog_append hp t, happend, hrun, rfl⟩
    · rw [splitTally, splitTally, SplitTally.accumulate, SplitTally.accumulate, hsymbols]
    · rw [fusedTally, fusedTally, FusedTally.accumulate, FusedTally.accumulate, hsymbols]
    · rw [codedLength_eq, codedLength_eq, hbits]
    · rw [packHuffman, packHuffman, hbits]

theorem decode_incremental_malformed :
    malformed.prolog = .ok (⟨3, 8, 9, 0⟩, 5) ∧
      malformed.walk = .ok ⟨malformedInstructions, some (.reservedOpcode 7)⟩ ∧
      (∃ r next, (Replay.start (⟨3, 8, 9, 0⟩ : Prolog).base).run malformedInstructions.dropLast =
          .ok r ∧ (malformed.endedAt 18).decode = .ok r.phases ∧
        (malformed.endedAt 19).decode = .ok next ∧
        r.machine.Records r.phases next (.delta .deltaG)) ∧
      noHints.decode = .ok ⟨some .empty, .empty⟩ ∧
      (noHints.append malformed).decode = .ok ⟨some .empty, .empty⟩ ∧
      (noHints.append malformed).packHuffman true = noHints.packHuffman true := by
  have hfront : malformedInstructions.dropLast <+: malformedInstructions := List.dropLast_prefix _
  have hlast : malformedInstructions.dropLast ++ [.delta .deltaG] = malformedInstructions := rfl
  obtain ⟨t, hrun, -⟩ := map_eq_ok.mp run_malformed
  rw [← hlast] at hrun
  obtain ⟨r, hrun, hstep⟩ := Replay.run_concat.mp hrun
  obtain ⟨hcut, hnext⟩ := (decode_incremental malformed).1 _ _ _ _ _ prolog_malformed
    walk_malformed hfront (by decide) hrun
  obtain ⟨next, hdecode, hrecords⟩ := hnext (.delta .deltaG) t (hlast ▸ List.prefix_refl _)
    (by decide) hstep
  have hnone : noHints.decode = .ok ⟨some .empty, .empty⟩ := by decide +kernel
  obtain ⟨happend, -, -, -, -, hpack⟩ := (decode_incremental noHints).2 _ hnone malformed
  exact ⟨prolog_malformed, walk_malformed, ⟨r, next, hrun, hcut, hdecode, hrecords⟩, hnone,
    happend, hpack true⟩

end NybbleStream

end GlyphHints
