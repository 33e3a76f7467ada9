import GlyphHints.Proofs.Compression

/-!
# The round trip

A stream decodes to the glyph it was made from, its delta instructions are as many as the
glyph has hints, and encoding what it decodes to gives the same stream. So verification never
refuses a stream.
-/
namespace GlyphHints

namespace NybbleStream

theorem decode_of_run {s : NybbleStream} {p : Prolog} {n : Nat} {is : List Instruction}
    {r : Replay} (hprolog : s.prolog = .ok (p, n)) (hwalk : s.walk = .ok ⟨is, none⟩)
    (hrun : (Replay.start p.base).Run is r) : s.decode = .ok r.phases := by
  simp only [decode, hprolog, hwalk, bind, Except.bind, hrun.run_eq]
  rfl

end NybbleStream

namespace Body
variable {is : List Instruction} {n : Nat}

theorem rtgah_not_mem (h : Body is n) : Instruction.rtgah ∉ is ++ [.finish] := by
  intro hmem
  rcases List.mem_append.mp hmem with hmem | hmem
  · exact (h.plain _ hmem).1 rfl
  · simp at hmem

theorem countP_finish (h : Body is n) :
    (is ++ [Instruction.finish]).countP Instruction.isDelta = n := by
  rw [List.countP_append, h.count]
  rfl

end Body

namespace GlyphPhases
variable {phases : GlyphPhases} {stream : NybbleStream}

/-! ## Counting deltas -/

/-- Each hint takes one delta instruction, in front of RTGAH if it is of the first phase and
behind it if it is of the second. -/
def TakesEach (phases : GlyphPhases) (is : List Instruction) : Prop :=
  match phases.pre with
  | none => .rtgah ∉ is ∧ is.countP Instruction.isDelta = phases.post.size
  | some pre => ∃ before after, is = before ++ .rtgah :: after ∧
      .rtgah ∉ before ∧ .rtgah ∉ after ∧
      before.countP Instruction.isDelta = pre.size ∧
      after.countP Instruction.isDelta = phases.post.size

theorem takesEach_of_finished {c : Progress} {base : Base} (hbase : base.Underlies phases)
    (hreaches : (Progress.start (.start base) phases).Reaches c) (hend : c.Finished) :
    phases.TakesEach (c.encoder.emitted.toList ++ [.finish]) := by
  have hsteady := Progress.steady_of_reaches hreaches
  have hpost := (hsteady.recorded_perm hend).length_eq
  unfold TakesEach
  rcases (hsteady.conserves.serves.of_last hend.later).2 with
    ⟨hpre, hpast⟩ | ⟨pre, past, hpre, hpast, hperm⟩
  · rw [hpre]
    cases Progress.counted_of_reaches hbase hreaches with
    | first _ hbody =>
      rw [hpost] at hbody
      exact ⟨hbody.rtgah_not_mem, hbody.countP_finish⟩
    | second hsome _ _ _ =>
      rw [hpast] at hsome
      contradiction
  · rw [hpre]
    cases Progress.counted_of_reaches hbase hreaches with
    | first hnone _ =>
      rw [hpast] at hnone
      contradiction
    | @second past before after hsome hsplit hbefore hafter =>
      rw [hpast] at hsome
      cases hsome
      rw [hperm.length_eq] at hbefore
      rw [hpost] at hafter
      refine ⟨before, after ++ [.finish], ?_, ?_, hafter.rtgah_not_mem, hbefore.count,
        hafter.countP_finish⟩
      · rw [hsplit, List.append_assoc]
        rfl
      · exact fun hmem => (hbefore.plain _ hmem).1 rfl

theorem compress_takesEach (hrange : phases.InRange) (h : phases.compress = .ok stream) :
    ∃ is, stream.walk = .ok ⟨is, none⟩ ∧ phases.reproduction.TakesEach is := by
  cases hempty : phases.isEmpty with
  | true =>
    rw [compress_of_isEmpty hempty] at h
    cases h
    rw [reproduction_of_isEmpty hempty]
    exact ⟨[.rtgah, .finish], rfl, [], [.finish], rfl, by simp, by simp, rfl, rfl⟩
  | false =>
    obtain ⟨p, fits, hp, c, hreaches, hfinished, rfl⟩ := compress_eq_ok hempty h
    have hbase := underlies_of_prolog hrange hempty hp
    rw [reproduction_eq hempty]
    exact ⟨_, Progress.walk_of_finished fits hbase hreaches,
      takesEach_of_finished hbase hreaches hfinished⟩

/-! ## Decoding -/

theorem decode_compress (hrange : phases.InRange) (h : phases.compress = .ok stream) :
    stream.decode = .ok phases.reproduction := by
  obtain ⟨p, n, is, machine, hprolog, hwalk, hrun⟩ := compress_runs hrange h
  exact NybbleStream.decode_of_run hprolog hwalk hrun

theorem reproducedBy_reproduction (phases : GlyphPhases) :
    phases.reproducedBy phases.reproduction = true := by
  cases hempty : phases.isEmpty with
  | true =>
    rw [reproduction_of_isEmpty hempty]
    obtain ⟨hpost, hpre⟩ := isEmpty_iff.mp hempty
    rcases phases with ⟨pre, post⟩
    obtain rfl : post = .empty := hpost
    obtain rfl | rfl : pre = none ∨ pre = some .empty := hpre
    · simp [reproducedBy, PhaseMap.isEmpty_iff]
    · simp [reproducedBy]
  | false =>
    rw [reproduction_eq hempty]
    rcases phases with ⟨_ | pre, post⟩ <;> simp [reproducedBy]

theorem encode_verified (hrange : phases.InRange) : phases.encode true = phases.compress := by
  unfold encode
  cases h : phases.compress with
  | error => rfl
  | ok stream =>
    simp only [bind, Except.bind, if_true, decode_compress hrange h, reproducedBy_reproduction]
    rfl

/-- Encoding gives a stream that holds every hint once and decodes to them, the same stream
again for what it decodes to, and the same result whether it is verified or not. -/
theorem round_trip (hrange : phases.InRange) :
    (∀ stream, phases.encode false = .ok stream →
      stream.decode = .ok phases.reproduction ∧
      (∃ is, stream.walk = .ok ⟨is, none⟩ ∧ phases.reproduction.TakesEach is) ∧
      phases.reproduction.encode false = .ok stream) ∧
    phases.encode true = phases.encode false := by
  constructor
  · intro stream h
    rw [encode_unverified] at h
    refine ⟨decode_compress hrange h, compress_takesEach hrange h, ?_⟩
    rw [encode_unverified]
    cases hempty : phases.isEmpty with
    | true =>
      rw [compress_of_isEmpty hempty] at h
      rw [reproduction_of_isEmpty hempty]
      exact h
    | false =>
      rw [reproduction_eq hempty]
      exact h
  · rw [encode_verified hrange, encode_unverified]

theorem round_trip_sample : sampleStream.decode = .ok sample ∧
    (∃ is, sampleStream.walk = .ok ⟨is, none⟩ ∧ sample.TakesEach is) ∧
    sample.encode true = .ok sampleStream := by
  have hsame : sample.reproduction = sample := reproduction_eq (by decide +kernel)
  obtain ⟨hstream, hverified⟩ := round_trip inRange_sample
  obtain ⟨hdecode, htakes, _⟩ := hstream sampleStream encode_sample
  rw [hsame] at hdecode htakes
  exact ⟨hdecode, htakes, hverified.trans encode_sample⟩

end GlyphPhases

end GlyphHints
