import GlyphHints.Proofs.Advancing
import GlyphHints.Proofs.Faults
import GlyphHints.Proofs.PhaseMap
import GlyphHints.Proofs.Runs

/-!
# Replaying any stream

Whatever instructions a machine obeys, its delta shift and delta base stay in their ranges, its
repeat is not zero and neither is its shift. Repeat and shift can only grow so far in a number of
instructions, and while they are that small a shift is advanced without rounding: what holds is
said of a machine together with the number of instructions behind it. So every hint a replay comes
to is recorded, and it fails only where the stream is at fault.
-/
namespace GlyphHints

namespace Machine
variable {s t : Machine} {n : Nat} {e : Error}

/-- What holds of a machine behind a number of instructions. -/
structure Ranged (n : Nat) (s : Machine) : Prop where
  deltaShift : s.deltaShift ≤ maxDeltaShift
  repeats_pos : 1 ≤ s.repeats
  repeats_le : s.repeats ≤ 64 * n + 16
  deltaBase : ∃ k ≤ n, s.deltaBase = initialDeltaBase + deltaBaseSpan * k
  shift : s.shift.OnGrid (8 + 64 * n ^ 2)
  base : s.base.shift.OnGrid 8

theorem ranged_start {base : Base} (h : base.shift.OnGrid 8) : (start base).Ranged 0 where
  deltaShift := (by decide : initialDeltaShift ≤ maxDeltaShift)
  repeats_pos := le_rfl
  repeats_le := by change 1 ≤ 16; decide
  deltaBase := ⟨0, le_rfl, rfl⟩
  shift := h
  base := h

namespace Ranged

theorem succ (h : s.Ranged n) : s.Ranged (n + 1) where
  deltaShift := h.deltaShift
  repeats_pos := h.repeats_pos
  repeats_le := by have := h.repeats_le; omega
  deltaBase := by
    obtain ⟨k, hk, hbase⟩ := h.deltaBase
    exact ⟨k, Nat.le_succ_of_le hk, hbase⟩
  shift := h.shift.mono (by gcongr; omega)
  base := h.base

theorem reset (h : s.Ranged n) (mask : Mask) : (s.reset mask).Ranged n where
  deltaShift := h.deltaShift
  repeats_pos := h.repeats_pos
  repeats_le := h.repeats_le
  deltaBase := h.deltaBase
  base := h.base
  shift := by
    unfold Machine.reset
    dsimp only
    split_ifs
    · exact h.base.mono (Nat.le_add_right 8 _)
    · exact h.shift

/-- A hint moves the shift by little more than the repeat. -/
theorem advance (h : s.Ranged n) (hn : n < 2 ^ 20) : s.advance.Ranged (n + 1) := by
  have hrepeats := h.repeats_le
  have hbound : 8 + 64 * n ^ 2 ≤ 2 ^ 46 := by nlinarith
  have hmoved := onGrid_shiftAfter h.deltaShift h.shift hbound (by omega : s.repeats ≤ 2 ^ 46)
  refine { h.succ with shift := ?_ }
  unfold Machine.advance
  dsimp only
  split_ifs
  -- The repeat and three more pixels are no more than 128 * n + 64.
  · exact hmoved.mono (by nlinarith)
  · exact h.succ.shift

theorem setShift (h : s.Ranged n) (grain : Nybble) :
    { s with shift := Grain.toShift (grain.val : Int) s.deltaShift }.Ranged n :=
  { h with shift := (Grain.onGrid_toShift grain.isLt h.deltaShift).mono (Nat.le_add_right 8 _) }

theorem addRepeats (h : s.Ranged n) (hn : n < 2 ^ 20) {k : Nat} (hk : k ≤ 64) :
    { s with repeats := cappedAdd s.repeats k }.Ranged (n + 1) := by
  have hpos := h.repeats_pos
  have hle := h.repeats_le
  refine { h.succ with repeats_pos := ?_, repeats_le := ?_ }
  all_goals
    simp only [cappedAdd]
    omega

theorem raiseDeltaBase (h : s.Ranged n) (hn : n < 2 ^ 20) :
    { s with deltaBase := cappedAdd s.deltaBase deltaBaseSpan }.Ranged (n + 1) := by
  obtain ⟨k, hk, hbase⟩ := h.deltaBase
  refine { h.succ with deltaBase := ⟨k + 1, Nat.succ_le_succ hk, ?_⟩ }
  simp only [hbase, cappedAdd, initialDeltaBase, deltaBaseSpan]
  omega

/-- The lowest window cannot be left downwards. -/
theorem lowerDeltaBase (h : s.Ranged n) (hle : ¬ s.deltaBase < deltaBaseSpan) :
    { s with deltaBase := s.deltaBase - deltaBaseSpan }.Ranged (n + 1) := by
  obtain ⟨k, hk, hbase⟩ := h.deltaBase
  simp only [hbase, initialDeltaBase, deltaBaseSpan] at hle
  refine { h.succ with deltaBase := ⟨k - 1, by omega, ?_⟩ }
  simp only [hbase, initialDeltaBase, deltaBaseSpan]
  omega

theorem stepMisc {m : Misc} (h : s.Ranged n) (hn : n < 2 ^ 20) (hstep : s.stepMisc m = .ok t) :
    t.Ranged (n + 1) := by
  cases m with
  | setXAxis | setYAxis =>
    cases hstep
    exact { h.succ.reset .all with }
  | incrementDeltaShift =>
    simp only [Machine.stepMisc] at hstep
    split_ifs at hstep with hfinest
    cases hstep
    exact { h.succ with deltaShift := Nat.lt_of_not_le hfinest }
  | decrementDeltaShift =>
    simp only [Machine.stepMisc] at hstep
    split_ifs at hstep
    cases hstep
    exact { h.succ with deltaShift := (Nat.sub_le _ 1).trans h.deltaShift }
  | incrementDeltaBase =>
    cases hstep
    exact h.raiseDeltaBase hn
  | decrementDeltaBase =>
    simp only [Machine.stepMisc] at hstep
    split_ifs at hstep with hlowest
    cases hstep
    exact h.lowerDeltaBase hlowest
  | addPpem32 | addPpem64 | addPoint32 | addPoint64 =>
    cases hstep
    exact { h.succ with }
  | addRepeat16 | addRepeat32 | addRepeat64 =>
    cases hstep
    exact h.addRepeats hn (by decide)

/-- One more instruction, and the machine is as it should be behind one more. -/
theorem step {i : Instruction} (h : s.Ranged n) (hn : n < 2 ^ 20) (hstep : s.step i = .ok t) :
    t.Ranged (n + 1) := by
  cases i with
  | misc m => exact h.stepMisc hn hstep
  | delta kind =>
    cases hstep
    exact h.advance hn
  | reset mask =>
    cases hstep
    exact h.succ.reset mask
  | rtgah =>
    cases hstep
    exact h.succ.reset .all
  | setRepeat operand =>
    cases hstep
    have hlt := operand.isLt
    exact { h.succ with
      repeats_pos := Nat.succ_pos _
      repeats_le := by change operand.val + 1 ≤ 64 * (n + 1) + 16; omega }
  | setShift grain =>
    cases hstep
    exact h.succ.setShift grain
  | setAutoIncrement | addPpem | addPoint | finish =>
    cases hstep
    exact { h.succ with }

end Ranged

/-- What every instruction may rely on. -/
structure Coherent (s : Machine) : Prop where
  deltaShift_le : s.deltaShift ≤ 6
  one_le_repeats : 1 ≤ s.repeats
  le_deltaBase : 9 ≤ s.deltaBase
  deltaBase_mod : s.deltaBase % 48 = 9
  shift : ∃ k : Int, k ≠ 0 ∧ s.shift = .pixels (k / 64)

theorem Ranged.coherent (h : s.Ranged n) : s.Coherent := by
  obtain ⟨k, -, hbase⟩ := h.deltaBase
  simp only [initialDeltaBase, deltaBaseSpan] at hbase
  exact ⟨h.deltaShift, h.repeats_pos, by omega, by omega, h.shift.exists_eq⟩

/-- A usable shift is all that a hint needs to be recorded. -/
theorem isValid_hint (h : s.shift.isUsable = true) (kind : DeltaKind) :
    (s.hint kind).isValid = true := by
  have hshift : s.shift.foldZero = s.shift := by
    generalize s.shift = shift at h ⊢
    cases shift with
    | negativeZero => contradiction
    | pixels | infinite | nan => rfl
  simp only [hint, Hint.of, Hint.isValid, hshift, h, Bool.true_and]
  cases kind <;> rfl

/-! ## Instructions that cannot be obeyed -/

/-- The changes of a setting that lead out of its range. -/
inductive Refuses (s : Machine) : Misc → Prop
  | finest : maxDeltaShift ≤ s.deltaShift → Refuses s .incrementDeltaShift
  | coarsest : s.deltaShift = 0 → Refuses s .decrementDeltaShift
  | lowest : s.deltaBase < deltaBaseSpan → Refuses s .decrementDeltaBase

theorem refuses_of_stepMisc {m : Misc} (h : s.stepMisc m = .error e) :
    s.Refuses m ∧ e = .invalidOperand 6 m.operand := by
  cases m with
  | incrementDeltaShift =>
    simp only [stepMisc] at h
    split_ifs at h with hfinest
    exact ⟨.finest hfinest, (Except.error.inj h).symm⟩
  | decrementDeltaShift =>
    simp only [stepMisc] at h
    split_ifs at h with hcoarsest
    exact ⟨.coarsest hcoarsest, (Except.error.inj h).symm⟩
  | decrementDeltaBase =>
    simp only [stepMisc] at h
    split_ifs at h with hlowest
    exact ⟨.lowest hlowest, (Except.error.inj h).symm⟩
  | _ => contradiction

theorem refuses_of_step {i : Instruction} (h : s.step i = .error e) :
    ∃ m, i = .misc m ∧ s.Refuses m ∧ e = .invalidOperand 6 m.operand := by
  cases i with
  | misc m => exact ⟨m, rfl, refuses_of_stepMisc h⟩
  | _ => contradiction

end Machine

namespace Replay
variable {r t : Replay} {is : List Instruction} {i : Instruction} {e : Error}

/-- A machine with a usable shift records every hint, so only the machine can fail. -/
theorem machine_of_step_eq_error (hshift : r.machine.shift.isUsable = true)
    (h : r.step i = .error e) : r.machine.step i = .error e := by
  cases i with
  | delta kind =>
    have hvalid := Machine.isValid_hint hshift kind
    simp only [step, PhaseMap.insert_of_isValid _ _ hvalid] at h
    contradiction
  | misc m =>
    rcases bind_eq_error.mp h with h | ⟨machine, -, h⟩
    · exact h
    · contradiction
  | _ => contradiction

theorem ranged_of_run {n : Nat} (h : r.machine.Ranged n) (hlength : n + is.length ≤ 2 ^ 20)
    (hrun : r.run is = .ok t) : t.machine.Ranged (n + is.length) := by
  induction is generalizing r n with
  | nil =>
    cases hrun
    exact h
  | cons i is ih =>
    obtain ⟨u, hstep, hrest⟩ := bind_eq_ok.mp hrun
    have hnext : n + (i :: is).length = n + 1 + is.length := by
      rw [List.length_cons, Nat.add_right_comm, Nat.add_assoc]
    rw [hnext] at hlength ⊢
    have hn : n < 2 ^ 20 := by omega
    exact ih (h.step hn (machine_of_step hstep)) hlength hrest

end Replay

namespace NybbleStream
variable {s : NybbleStream} {p : Prolog} {n : Nat} {walk : Walk} {before : List Instruction}
  {r : Replay}

theorem ranged_of_prolog (h : s.prolog = .ok (p, n)) : (Machine.start p.base).Ranged 0 := by
  have hbase := Prolog.base_of_read s.nybbles_lt h
  exact Machine.ranged_start (Grain.onGrid_toShift hbase.2 hbase.1)

theorem ranged_of_walk (hlength : s.length < 2 ^ 20) (hprolog : s.prolog = .ok (p, n))
    (hwalk : s.walk = .ok walk) (hfront : before <+: walk.instructions)
    (hrun : (Replay.start p.base).run before = .ok r) : r.machine.Ranged before.length := by
  have hle := hfront.length_le.trans (length_instructions_le hwalk)
  have hranged := Replay.ranged_of_run (ranged_of_prolog hprolog) (by omega) hrun
  rwa [Nat.zero_add] at hranged

/-- What is decoded is a program that is read to its end and obeyed. -/
theorem decode_eq_ok_iff {phases : GlyphPhases} : s.decode = .ok phases ↔
    ∃ p n is r, s.prolog = .ok (p, n) ∧ s.walk = .ok ⟨is, none⟩ ∧
      (Replay.start p.base).run is = .ok r ∧ r.phases = phases := by
  constructor
  · intro h
    obtain ⟨⟨p, n⟩, hprolog, h⟩ := bind_eq_ok.mp h
    obtain ⟨⟨is, fault⟩, hwalk, h⟩ := bind_eq_ok.mp h
    obtain ⟨r, hrun, h⟩ := bind_eq_ok.mp h
    cases fault with
    | some e => contradiction
    | none => exact ⟨p, n, is, r, hprolog, hwalk, hrun, Except.ok.inj h⟩
  · rintro ⟨p, n, is, r, hprolog, hwalk, hrun, rfl⟩
    exact bind_eq_ok.mpr ⟨_, hprolog, bind_eq_ok.mpr ⟨_, hwalk, bind_eq_ok.mpr ⟨r, hrun, rfl⟩⟩⟩

/-- Decoding fails in the prolog, at an instruction that cannot be obeyed, or behind the last one
that can be read. -/
theorem exists_of_decode_eq_error {e : Error} (h : s.decode = .error e) :
    s.prolog = .error e ∨ ∃ p n walk, s.prolog = .ok (p, n) ∧ s.walk = .ok walk ∧
      (walk.fault = some e ∨ ∃ before i r, before ++ [i] <+: walk.instructions ∧
        (Replay.start p.base).run before = .ok r ∧ r.step i = .error e) := by
  rcases bind_eq_error.mp h with h | ⟨⟨p, n⟩, hprolog, h⟩
  · exact .inl h
  refine .inr ⟨p, n, ?_⟩
  rcases bind_eq_error.mp h with h | ⟨walk, hwalk, h⟩
  · have hbody := walk_eq_ok_iff.mpr ⟨p, n, hprolog, rfl⟩
    rw [hbody] at h
    contradiction
  refine ⟨walk, hprolog, hwalk, ?_⟩
  rcases bind_eq_error.mp h with h | ⟨r, -, h⟩
  · obtain ⟨before, i, after, r, hsplit, hrun, hstep⟩ := exists_of_foldlM_eq_error h
    refine .inr ⟨before, i, r, ⟨after, ?_⟩, hrun, hstep⟩
    rw [hsplit, List.append_assoc, List.singleton_append]
  · left
    cases hfault : walk.fault with
    | none => simp [hfault, pure, Except.pure] at h
    | some fault =>
      rw [hfault] at h
      exact congrArg some (Except.error.inj h)

/-- An instruction of a stream that cannot be obeyed leads a setting out of its range. -/
theorem refuses_of_step {i : Instruction} {e : Error} (hlength : s.length < 2 ^ 20)
    (hprolog : s.prolog = .ok (p, n)) (hwalk : s.walk = .ok walk)
    (hfront : before ++ [i] <+: walk.instructions)
    (hrun : (Replay.start p.base).run before = .ok r) (h : r.step i = .error e) :
    ∃ m, i = .misc m ∧ r.machine.Refuses m ∧ e = .invalidOperand 6 m.operand := by
  have hbefore := (List.prefix_append before [i]).trans hfront
  have hranged := ranged_of_walk hlength hprolog hwalk hbefore hrun
  exact Machine.refuses_of_step (Replay.machine_of_step_eq_error hranged.shift.isUsable h)

/-- Below 2 ^ 20 nybbles no shift is rounded, and neither repeat nor delta base is cut off. Behind
every instruction it obeys a machine is coherent, and whatever hint it could emit there is
recorded. So decoding fails for a fault of the stream only. -/
theorem decode_invariants (hlength : s.length < 2 ^ 20) :
    (∀ p n walk before r, s.prolog = .ok (p, n) → s.walk = .ok walk →
      before <+: walk.instructions → (Replay.start p.base).run before = .ok r →
        r.machine.Coherent ∧
          ∀ kind, ∃ post, r.phases.post.insert r.machine.axis (r.machine.hint kind) = .ok post) ∧
    ∀ e, s.decode = .error e → e.IsOfStream := by
  constructor
  · intro p n walk before r hprolog hwalk hfront hrun
    have hranged := ranged_of_walk hlength hprolog hwalk hfront hrun
    have hvalid := Machine.isValid_hint hranged.shift.isUsable
    exact ⟨hranged.coherent, fun kind => ⟨_, r.phases.post.insert_of_isValid _ (hvalid kind)⟩⟩
  · intro e he
    rcases exists_of_decode_eq_error he with h | ⟨p, n, walk, hprolog, hwalk, h⟩
    · exact isOfStream_of_prolog h
    rcases h with hfault | ⟨before, i, r, hfront, hrun, hstep⟩
    · exact isOfStream_of_fault hwalk hfault
    · obtain ⟨m, -, -, rfl⟩ := refuses_of_step hlength hprolog hwalk hfront hrun hstep
      exact .operand

/-- A stream with a reserved opcode behind two hints. The first is moved on from a shift of half
a grain. -/
def malformed : NybbleStream :=
  ⟨[3, 8, 0, 0, 0, 1, 4, 5, 8, 6, 3, 12, 6, 4, 2, 15, 6, 12, 12, 7], by decide⟩

def malformedInstructions : List Instruction :=
  [.setAutoIncrement ⟨false, false, true⟩, .setShift ⟨8, by decide⟩, .misc .decrementDeltaShift,
    .delta .deltaG, .misc .incrementDeltaBase, .setRepeat ⟨15, by decide⟩, .misc .addRepeat64,
    .delta .deltaG]

theorem prolog_malformed : malformed.prolog = .ok (⟨3, 8, 9, 0⟩, 5) := rfl

theorem walk_malformed :
    malformed.walk = .ok ⟨malformedInstructions, some (.reservedOpcode 7)⟩ := by
  decide +kernel

theorem run_malformed : ((Replay.start (⟨3, 8, 9, 0⟩ : Prolog).base).run
    malformedInstructions).map (·.machine.shift) = .ok (.pixels (81 / 4)) := by
  decide +kernel

theorem decode_malformed : malformed.decode = .error (.reservedOpcode 7) := by decide +kernel

theorem decode_invariants_malformed :
    malformed.length < 2 ^ 20 ∧ malformed.decode = .error (.reservedOpcode 7) ∧
      (Error.reservedOpcode 7).IsOfStream ∧
      ∃ r, (Replay.start (⟨3, 8, 9, 0⟩ : Prolog).base).run malformedInstructions = .ok r ∧
        r.machine.shift = .pixels (81 / 4) ∧ r.machine.Coherent ∧
        ∀ kind, ∃ post,
          r.phases.post.insert r.machine.axis (r.machine.hint kind) = .ok post := by
  have hlength : malformed.length < 2 ^ 20 := by decide
  have hinvariants := decode_invariants hlength
  obtain ⟨r, hrun, hshift⟩ := map_eq_ok.mp run_malformed
  have hmachine := hinvariants.1 _ _ _ _ _ prolog_malformed walk_malformed
    (List.prefix_refl malformedInstructions) hrun
  exact ⟨hlength, decode_malformed, hinvariants.2 _ decode_malformed, r, hrun, hshift, hmachine⟩

end NybbleStream

end GlyphHints
