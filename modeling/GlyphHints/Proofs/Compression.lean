import GlyphHints.Proofs.BaseValues
import GlyphHints.Proofs.Reading

/-!
# Compression as a run

The stream of a glyph with hints is its prolog and what the encoder has emitted at the end of
a run from the base values. Replaying it records the two phases of the glyph, no more and no
less, so decoding the stream gives them back.
-/
namespace GlyphHints

namespace GlyphPhases
variable {phases : GlyphPhases}

theorem encode_unverified (phases : GlyphPhases) : phases.encode false = phases.compress := by
  unfold encode
  cases phases.compress <;> rfl

theorem compress_of_isEmpty (h : phases.isEmpty = true) : phases.compress = .ok .noHints := by
  unfold compress
  rw [if_pos h]

theorem compress_eq_bind (hne : phases.isEmpty = false) : phases.compress = (do
    let p ← phases.prolog
    let e ← (Progress.start (.start p.1.base) phases).complete
    .ok (.ofInstructions p.1 p.2 (e.emitted.toList ++ [.finish]))) := by
  unfold compress
  rw [if_neg (by simp [hne])]
  cases phases.prolog with
  | error => rfl
  | ok p =>
    simp only [Progress.addPhases_eq, bind, Except.bind]
    cases (Progress.start (.start p.1.base) phases).complete with
    | error => rfl
    | ok f => simp [Except.map, NybbleStream.ofInstructions, Encoder.emit, pure, Except.pure]

theorem compress_eq_ok {stream : NybbleStream} (hne : phases.isEmpty = false)
    (h : phases.compress = .ok stream) : ∃ p, ∃ fits : p.Fits, phases.prolog = .ok ⟨p, fits⟩ ∧
      ∃ c, (Progress.start (.start p.base) phases).Reaches c ∧ c.Finished ∧
        stream = .ofInstructions p fits (c.encoder.emitted.toList ++ [.finish]) := by
  rw [compress_eq_bind hne] at h
  obtain ⟨⟨p, fits⟩, hp, h⟩ := bind_eq_ok.mp h
  obtain ⟨e, he, h⟩ := bind_eq_ok.mp h
  obtain ⟨c, hreaches, hfinished, rfl⟩ := Progress.complete_eq_ok he
  exact ⟨p, fits, hp, c, hreaches, hfinished, (Except.ok.inj h).symm⟩

theorem compress_eq_error {e : Error} (hne : phases.isEmpty = false)
    (h : phases.compress = .error e) : phases.prolog = .error e ∨
      ∃ p, phases.prolog = .ok p ∧
        ∃ c, (Progress.start (.start p.1.base) phases).Reaches c ∧ c.Fails e := by
  rw [compress_eq_bind hne] at h
  rcases bind_eq_error.mp h with h | ⟨p, hp, h⟩
  · exact Or.inl h
  · rcases bind_eq_error.mp h with h | ⟨_, _, h⟩
    · exact Or.inr ⟨p, hp, Progress.complete_eq_error h⟩
    · contradiction

end GlyphPhases

namespace Progress
variable {c : Progress} {base : Base} {phases : GlyphPhases}

/-- At the end a decoder has recorded both phases. -/
theorem Holds.eq_phases {seen : GlyphPhases} (h : Holds seen c.past c.recorded)
    (hc : c.Steady base phases) (hend : c.Finished) : seen = phases := by
  rcases seen with ⟨pre, post⟩
  have hpost : post = phases.post :=
    PhaseMap.eq_of_mem_iff fun x => (h.post x).trans (hc.recorded_perm hend).mem_iff
  have hrel : Option.Rel _ pre c.past := h.pre
  suffices hpre : pre = phases.pre by rw [hpre, hpost]
  rcases (hc.conserves.serves.of_last hend.later).2 with
    ⟨hnone, hpast⟩ | ⟨_, _, hsome, hpast, hperm⟩
  · rw [hpast] at hrel
    rw [hnone]
    cases hrel
    rfl
  · rw [hpast] at hrel
    rw [hsome]
    cases hrel with
    | some hmem =>
      exact congrArg some (PhaseMap.eq_of_mem_iff fun x => (hmem x).trans hperm.mem_iff)

/-- The emitted instructions and the end of the program replay to the glyph. -/
theorem run_of_finished (hbase : base.Underlies phases)
    (h : (start (.start base) phases).Reaches c) (hend : c.Finished) :
    (Replay.start base).Run (c.encoder.emitted.toList ++ [.finish])
      ⟨c.encoder.state, phases⟩ := by
  have hsteady := steady_of_reaches h
  obtain ⟨seen, hrun, hholds⟩ := tracked_of_reaches hbase h
  rw [hholds.eq_phases hsteady hend] at hrun
  exact hrun.append (.single (hsteady.planned.deltaBase_eq hend.plan) rfl)

theorem walk_of_finished {p : Prolog} (fits : p.Fits) (hbase : base.Underlies phases)
    (h : (start (.start base) phases).Reaches c) :
    (NybbleStream.ofInstructions p fits (c.encoder.emitted.toList ++ [.finish])).walk =
      .ok ⟨c.encoder.emitted.toList ++ [.finish], none⟩ :=
  NybbleStream.walk_of_body (NybbleStream.prolog_ofInstructions fits) List.drop_left
    (counted_of_reaches hbase h).finish_not_mem

end Progress

namespace GlyphPhases
variable {phases : GlyphPhases}

/-- What a glyph decodes to. Without any hint both phases are there and empty, whether the
glyph had a first phase or not. -/
def reproduction (phases : GlyphPhases) : GlyphPhases :=
  if phases.isEmpty then ⟨some .empty, .empty⟩ else phases

theorem reproduction_eq (hne : phases.isEmpty = false) : phases.reproduction = phases := by
  unfold reproduction
  rw [if_neg (by simp [hne])]

theorem reproduction_of_isEmpty (h : phases.isEmpty = true) :
    phases.reproduction = ⟨some .empty, .empty⟩ := by
  unfold reproduction
  rw [if_pos h]

/-- The instructions of a stream run from its base values to what the glyph decodes to, and
each of them is met in settings that suit it. -/
theorem compress_runs (hrange : phases.InRange) {stream : NybbleStream}
    (h : phases.compress = .ok stream) : ∃ p n instructions machine,
      stream.prolog = .ok (p, n) ∧ stream.walk = .ok ⟨instructions, none⟩ ∧
      (Replay.start p.base).Run instructions ⟨machine, phases.reproduction⟩ := by
  cases hempty : phases.isEmpty with
  | true =>
    rw [compress_of_isEmpty hempty] at h
    cases h
    rw [reproduction_of_isEmpty hempty]
    exact ⟨⟨3, 0, 9, 0⟩, 5, [.rtgah, .finish], _, rfl, rfl, .step rfl rfl (.single rfl rfl)⟩
  | false =>
    obtain ⟨p, fits, hp, c, hreaches, hfinished, rfl⟩ := compress_eq_ok hempty h
    have hbase := underlies_of_prolog hrange hempty hp
    rw [reproduction_eq hempty]
    refine ⟨p, p.nybbles.length, c.encoder.emitted.toList ++ [.finish], c.encoder.state, ?_, ?_, ?_⟩
    · exact NybbleStream.prolog_ofInstructions fits
    · exact Progress.walk_of_finished fits hbase hreaches
    · exact Progress.run_of_finished hbase hreaches hfinished

/-! ## A glyph -/

/-- Hints in both phases and on both axes, in two windows and at three granularities. -/
def sample : GlyphPhases where
  pre := some (((PhaseMap.empty.add .x ⟨12, .pixels (1 / 8), some 3, .deltaP⟩
      (by decide +kernel)).add .x ⟨13, .pixels (1 / 8), some 3, .deltaP⟩
      (by decide +kernel)).add .y ⟨70, .pixels (-1 / 2), none, .deltaG⟩ (by decide +kernel))
  post := PhaseMap.empty.add .y ⟨12, .pixels (3 / 64), some 300, .strokeDelta⟩
    (by decide +kernel)

def sampleStream : NybbleStream where
  nybbles := [1, 7, 3, 0, 3, 1, 1, 5, 8, 2, 0, 8, 8, 6, 1, 1, 7, 6, 4, 3, 15, 3, 15, 3, 15, 3, 9,
    12, 6, 5, 14, 6, 2, 6, 2, 6, 2, 5, 10, 6, 9, 6, 9, 6, 9, 6, 9, 6, 8, 4, 8, 13, 15]
  nybbles_lt := by decide

theorem encode_sample : sample.encode false = .ok sampleStream := by decide +kernel

theorem inRange_sample : sample.InRange := by
  have h : ∀ x ∈ sample.entries, x.2.ppem < 2 ^ 32 - 48 ∧ ∀ p ∈ x.2.point, p < 2 ^ 32 := by
    decide +kernel
  exact fun x hx => ⟨(h x hx).1, (h x hx).2⟩

end GlyphPhases

end GlyphHints
