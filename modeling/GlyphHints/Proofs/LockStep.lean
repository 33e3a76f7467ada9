import GlyphHints.Proofs.Compression

/-!
# Encoder and decoder in lock step

Whenever the encoder has processed a marker, an axis switch or RTGAH, the nybbles emitted so
far replay to the state it keeps and to the hints it has emitted. Its differences of ppem,
point and delta shift are never cut off at zero, and its grains fit their nybble.

Decoding never looks at the delta base, so neither a decoded glyph nor a verified stream tells
whether it was right. `Machine.Settled` says it of the machine in front of each instruction.
-/
namespace GlyphHints

namespace Encoder

/-- What the encoder subtracts and casts for a marker is exact. -/
def Exact (e : Encoder) : Marker → Prop
  | .hint h => (e.resetFor h).state.ppem ≤ h.ppem ∧
    ∃ f, ((e.resetFor h).matchPpem h.ppem).matchShift h.shift = .ok f ∧
      f.state.deltaShift = e.state.deltaShift ∧
      0 ≤ Grain.ofSteps (h.shift.steps f.state.deltaShift) ∧
      Grain.ofSteps (h.shift.steps f.state.deltaShift) ≤ 15 ∧
      ∀ p ∈ h.point, f.state.point ≤ p
  | .deltaShift d =>
    ((deltaShiftSteps e.state.deltaShift d).length : Int) = |(d : Int) - e.state.deltaShift|
  | .mask _ | .deltaBase _ => True

theorem length_deltaShiftSteps (first last : Nat) :
    ((deltaShiftSteps first last).length : Int) = |(last : Int) - first| := by
  simp only [deltaShiftSteps, repeated, List.length_append, List.length_replicate]
  rcases le_total first last with hle | hle
  · rw [abs_of_nonneg (by omega)]
    omega
  · rw [abs_of_nonpos (by omega)]
    omega

theorem exact_hint {e : Encoder} {h : Hint} (hh : h.Reachable e.state.base)
    (hrep : h.shift.isRepresentable e.state.deltaShift = true) : e.Exact (.hint h) := by
  obtain ⟨hlow, hhigh⟩ := grain_bounds (Hint.isUsable_of_isValid hh.valid) hrep
  have hshift := deltaShift_matchPpem e h
  rw [← hshift] at hrep
  obtain ⟨f, hf, hstate, _⟩ := matchShift_isOk hrep
  have hdeltaShift : f.state.deltaShift = e.state.deltaShift := by
    rw [hstate]
    exact hshift
  refine ⟨resetFor_ppem_le hh.base_ppem, f, hf, hdeltaShift, ?_, ?_, ?_⟩
  · rwa [hdeltaShift]
  · rwa [hdeltaShift]
  · intro p hp
    rw [hstate]
    exact resetFor_point_le hh.base_point hp

end Encoder

namespace Progress
variable {c : Progress} {base : Base} {phases : GlyphPhases}

theorem Steady.exact (hc : c.Steady base phases) (hbase : base.Underlies phases) {m : Marker}
    {plan : List Marker} (hplan : c.plan = m :: plan) : c.encoder.Exact m := by
  cases m with
  | mask | deltaBase => trivial
  | deltaShift d => exact Encoder.length_deltaShiftSteps _ d
  | hint h =>
    have hmem : h ∈ Plan.hints c.plan := by
      rw [hplan]
      exact List.mem_cons_self
    have hh := hc.reachable_of_mem hbase hmem
    rw [← hc.fresh.base_eq] at hh
    exact Encoder.exact_hint hh (hc.planned.sound_cons hplan).1.representable

/-- What has been emitted replays to the encoder, and the next marker is processed exactly. -/
structure InStep (p : Prolog) (fits : p.Fits) (c : Progress) : Prop where
  nybbles_le : ∀ n ∈ (NybbleStream.ofInstructions p fits c.encoder.emitted.toList).nybbles,
    n ≤ 15
  prolog : (NybbleStream.ofInstructions p fits c.encoder.emitted.toList).prolog =
    .ok (p, p.nybbles.length)
  /-- No instruction is missing or cut short, but the end of the program is still to come. -/
  walk : (NybbleStream.ofInstructions p fits c.encoder.emitted.toList).walk =
    .ok ⟨c.encoder.emitted.toList, some .truncatedStream⟩
  replay : ∃ r, (Replay.start p.base).run c.encoder.emitted.toList = .ok r ∧
    r.machine = c.encoder.state ∧ ∀ x, x ∈ r.phases.post.entries ↔ x ∈ c.recorded
  exact : ∀ m plan, c.plan = m :: plan → c.encoder.Exact m

theorem inStep_of_reaches {p : Prolog} (fits : p.Fits) (hbase : p.base.Underlies phases)
    (h : (start (.start p.base) phases).Reaches c) : c.InStep p fits := by
  have hcounted := counted_of_reaches hbase h
  obtain ⟨seen, hrun, hholds⟩ := tracked_of_reaches hbase h
  constructor
  case nybbles_le =>
    intro n hn
    exact Nat.le_of_lt_succ (NybbleStream.nybbles_lt _ n hn)
  case prolog => exact NybbleStream.prolog_ofInstructions fits
  case walk =>
    rw [NybbleStream.walk_ofInstructions, Walk.ofBody_writeAll hcounted.finish_not_mem]
  case replay => exact ⟨_, hrun.run_eq, rfl, hholds.post⟩
  case exact =>
    intro m plan hplan
    exact (steady_of_reaches h).exact hbase hplan

end Progress

namespace GlyphPhases
variable {phases : GlyphPhases} {stream : NybbleStream}

/-- A glyph without hints takes no run. For any other the run ends with the stream, and it is
in step all the way. -/
theorem lock_step (hrange : phases.InRange) (h : phases.encode false = .ok stream) :
    (phases.isEmpty = true ∧ stream = .noHints) ∨
    ∃ p, ∃ fits : p.Fits, phases.prolog = .ok ⟨p, fits⟩ ∧
      (∃ last, (Progress.start (.start p.base) phases).Reaches last ∧ last.Finished ∧
        stream = .ofInstructions p fits (last.encoder.emitted.toList ++ [.finish])) ∧
      ∀ c, (Progress.start (.start p.base) phases).Reaches c → c.InStep p fits := by
  rw [encode_unverified] at h
  cases hempty : phases.isEmpty with
  | true =>
    rw [compress_of_isEmpty hempty] at h
    exact Or.inl ⟨rfl, (Except.ok.inj h).symm⟩
  | false =>
    obtain ⟨p, fits, hp, last, hreaches, hfinished, hstream⟩ := compress_eq_ok hempty h
    have hbase := underlies_of_prolog hrange hempty hp
    refine Or.inr ⟨p, fits, hp, ⟨last, hreaches, hfinished, hstream⟩, ?_⟩
    intro c hc
    exact Progress.inStep_of_reaches fits hbase hc

theorem lock_step_sample : ∃ p, ∃ fits : p.Fits, sample.prolog = .ok ⟨p, fits⟩ ∧
    (∃ last, (Progress.start (.start p.base) sample).Reaches last ∧ last.Finished ∧
      sampleStream = .ofInstructions p fits (last.encoder.emitted.toList ++ [.finish])) ∧
    ∀ c, (Progress.start (.start p.base) sample).Reaches c → c.InStep p fits := by
  have hhints : sample.isEmpty = false := by decide +kernel
  rcases lock_step inRange_sample encode_sample with ⟨hempty, _⟩ | hsteps
  · rw [hhints] at hempty
    contradiction
  · exact hsteps

/-! ## Windows -/

/-- Wherever a replay of a stream stands, the next instruction suits its machine. -/
theorem replay_settled (hrange : phases.InRange) (h : phases.encode false = .ok stream) :
    ∃ p n instructions,
      stream.prolog = .ok (p, n) ∧ stream.walk = .ok ⟨instructions, none⟩ ∧
      ∀ before i after, instructions = before ++ i :: after →
        ∃ r, (Replay.start p.base).run before = .ok r ∧ r.machine.Settled i := by
  rw [encode_unverified] at h
  obtain ⟨p, n, instructions, machine, hprolog, hwalk, hrun⟩ := compress_runs hrange h
  refine ⟨p, n, instructions, hprolog, hwalk, ?_⟩
  rintro before i after rfl
  exact hrun.settled

theorem replay_settled_sample : ∃ p n instructions,
    sampleStream.prolog = .ok (p, n) ∧ sampleStream.walk = .ok ⟨instructions, none⟩ ∧
    ∀ before i after, instructions = before ++ i :: after →
      ∃ r, (Replay.start p.base).run before = .ok r ∧ r.machine.Settled i :=
  replay_settled inRange_sample encode_sample

end GlyphPhases

end GlyphHints
