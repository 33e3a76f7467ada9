import GlyphHints.Proofs.Compression

/-!
# Which glyphs can be encoded

A granularity is sought in three places: for the base shift, for the shifts of a plan and for
the shift of each hint. None of them refuses a shift that fits some delta shift, whatever
delta shift earlier hints have left behind. So a glyph has a stream exactly if its shifts fit
and its base values do.
-/
namespace GlyphHints

/-- What the hints of a glyph must meet to have a stream. -/
structure GlyphPhases.Encodable (phases : GlyphPhases) : Prop where
  shift : ∀ x ∈ phases.entries, ∃ (k : Int) (d : Nat),
    k ≠ 0 ∧ k.natAbs ≤ 8 ∧ d ≤ 6 ∧ x.2.shift = Shift.ofSteps k d
  ppem : ∃ p, IsLeast {p | ∃ x ∈ phases.entries, x.2.ppem = p} p ∧ 9 ≤ p ∧ p ≤ 255
  point : ∀ p, IsLeast {p | ∃ x ∈ phases.entries, x.2.point = some p} p → p ≤ 255

/-- The refusals of an encoder. -/
inductive Error.Refuses : Error → Prop
  | granularity (shift : Shift) : Refuses (.granularityExhausted shift)
  | overflow (field : PrologField) (value : Shift) : Refuses (.prologOverflow field value)
  | ppem (ppem : Nat) : Refuses (.basePpemTooLow ppem)

/-! ## Every recorded hint fits -/

namespace Progress
variable {c d : Progress} {base : Base} {phases : GlyphPhases}

/-- The hints emitted so far. -/
def emittedHints (c : Progress) : List (Axis × Hint) := c.past.getD [] ++ c.recorded

def Fitting (c : Progress) : Prop :=
  ∀ x ∈ c.emittedHints, ∃ d ≤ maxDeltaShift, x.2.shift.isRepresentable d = true

theorem Step.fitting (h : c.Step d) (hc : c.Planned) (hfit : c.Fitting) : d.Fitting := by
  cases h with
  | @marker m plan f hplan _ =>
    intro x hx
    simp only [emittedHints, record, ← List.append_assoc] at hx
    rcases List.mem_append.mp hx with hx | hx
    · exact hfit x hx
    · cases m with
      | hint h =>
        obtain rfl := List.mem_singleton.mp hx
        exact ⟨_, hc.valid.deltaShift_le, (hc.sound_cons hplan).1.representable⟩
      | _ => exact absurd hx List.not_mem_nil
  | axis _ _ _ => exact hfit
  | rtgah _ _ _ =>
    intro x hx
    rw [emittedHints, opening, List.append_nil] at hx
    exact hfit x (List.mem_append_right _ hx)

theorem fitting_of_reaches (h : (start (.start base) phases).Reaches c) : c.Fitting := by
  induction h with
  | refl =>
    intro x hx
    rcases phases with ⟨_ | pre, post⟩ <;> exact absurd hx List.not_mem_nil
  | tail hreaches hstep ih => exact hstep.fitting (steady_of_reaches hreaches).planned ih

/-- At the end all hints have been emitted. -/
theorem Steady.emittedHints_perm (h : c.Steady base phases) (hend : c.Finished) :
    c.emittedHints.Perm phases.entries := by
  have hperm := h.recorded_perm hend
  unfold emittedHints GlyphPhases.entries
  rcases (h.conserves.serves.of_last hend.later).2 with
    ⟨hpre, hpast⟩ | ⟨pre, past, hpre, hpast, hpastPerm⟩
  · rw [hpre, hpast]
    exact hperm
  · rw [hpre, hpast]
    exact hpastPerm.append hperm

end Progress

namespace GlyphPhases
variable {phases : GlyphPhases}

theorem exists_steps_iff {x : Axis × Hint} (hx : x ∈ phases.entries) :
    (∃ d ≤ maxDeltaShift, x.2.shift.isRepresentable d = true) ↔ ∃ (k : Int) (d : Nat),
      k ≠ 0 ∧ k.natAbs ≤ 8 ∧ d ≤ 6 ∧ x.2.shift = Shift.ofSteps k d := by
  have hu := Hint.isUsable_of_isValid (isValid_of_mem hx)
  constructor
  · rintro ⟨d, hd, hrep⟩
    obtain ⟨k, hk, hle, hshift⟩ := (Shift.isRepresentable_iff hu).mp hrep
    exact ⟨k, d, hk, hle, hd, hshift⟩
  · rintro ⟨k, d, hk, hle, hd, hshift⟩
    exact ⟨d, hd, (Shift.isRepresentable_iff hu).mpr ⟨k, hk, hle, hshift⟩⟩

/-! ## The prolog -/

theorem prolog_refuses {e : Error} (h : phases.prolog = .error e) : e.Refuses := by
  rcases prolog_eq_error h with h | ⟨_, _, _, rfl⟩ | ⟨_, rfl⟩ | ⟨_, rfl⟩ | ⟨_, rfl⟩
  · rw [Shift.coarsest_eq_error h]
    exact .granularity _
  · exact .overflow _ _
  · exact .ppem _
  · exact .overflow _ _
  · exact .overflow _ _

/-- If every shift fits a delta shift, the base shift fits the prolog, and only another base
value can be refused. -/
theorem prolog_eq_error_of_steps (hne : phases.isEmpty = false)
    (hsteps : ∀ x ∈ phases.entries, ∃ (k : Int) (d : Nat),
      k ≠ 0 ∧ k.natAbs ≤ 8 ∧ d ≤ 6 ∧ x.2.shift = Shift.ofSteps k d)
    {e : Error} (h : phases.prolog = .error e) :
    (phases.leastPpem < Prolog.minBasePpem ∧ e = .basePpemTooLow phases.leastPpem) ∨
    (255 < phases.leastPpem ∧ e = .prologOverflow .basePpem (.pixels phases.leastPpem)) ∨
    (255 < phases.leastPoint ∧ e = .prologOverflow .basePoint (.pixels phases.leastPoint)) := by
  obtain ⟨x, hx, hshift⟩ := leastShift_mem hne
  obtain ⟨r, hr, hrep⟩ := (exists_steps_iff hx).mpr (hsteps x hx)
  rw [hshift] at hrep
  obtain ⟨d, hd, hrepd⟩ := Shift.coarsest_of_representable hr hrep
  have hu := Hint.isUsable_of_isValid (isValid_of_mem hx)
  rw [hshift] at hu
  obtain ⟨hlow, hhigh⟩ := Encoder.grain_bounds hu hrepd
  rcases prolog_eq_error h with hc | ⟨d', hd', hgrain, _⟩ | hbase
  · rw [hd] at hc
    contradiction
  · obtain rfl := Except.ok.inj (hd.symm.trans hd')
    omega
  · exact hbase

/-! ## The stream -/

theorem compress_eq_error_of_steps
    (hsteps : ∀ x ∈ phases.entries, ∃ (k : Int) (d : Nat),
      k ≠ 0 ∧ k.natAbs ≤ 8 ∧ d ≤ 6 ∧ x.2.shift = Shift.ofSteps k d)
    {e : Error} (h : phases.compress = .error e) :
    (phases.leastPpem < Prolog.minBasePpem ∧ e = .basePpemTooLow phases.leastPpem) ∨
    (255 < phases.leastPpem ∧ e = .prologOverflow .basePpem (.pixels phases.leastPpem)) ∨
    (255 < phases.leastPoint ∧ e = .prologOverflow .basePoint (.pixels phases.leastPoint)) := by
  cases hempty : phases.isEmpty with
  | true =>
    rw [compress_of_isEmpty hempty] at h
    contradiction
  | false =>
    rcases compress_eq_error hempty h with herr | ⟨_, _, c, hreaches, hfails⟩
    · exact prolog_eq_error_of_steps hempty hsteps herr
    · obtain ⟨x, hx, _, hnone⟩ := (Progress.steady_of_reaches hreaches).granularityExhausted hfails
      obtain ⟨r, hr, hrep⟩ := (exists_steps_iff hx).mpr (hsteps x hx)
      rw [hnone r hr] at hrep
      contradiction

/-- The base values of an encodable glyph are not refused either. -/
theorem compress_isOk (h : phases.Encodable) (hne : phases.isEmpty = false) :
    ∃ stream, phases.compress = .ok stream := by
  cases hc : phases.compress with
  | ok stream => exact ⟨stream, rfl⟩
  | error e =>
    exfalso
    obtain ⟨p, hleast, hle, hge⟩ := h.ppem
    have hppem := hleast.unique (isLeast_leastPpem hne)
    have hpoint : phases.leastPoint ≤ 255 := by
      rcases phases.leastPoint_eq with hq | ⟨hzero, _⟩
      · exact h.point _ hq
      · omega
    rcases compress_eq_error_of_steps h.shift hc with ⟨hlt, _⟩ | ⟨hlt, _⟩ | ⟨hlt, _⟩
    · simp only [Prolog.minBasePpem] at hlt
      omega
    · omega
    · omega

theorem encodable_of_compress {stream : NybbleStream} (hne : phases.isEmpty = false)
    (h : phases.compress = .ok stream) : phases.Encodable := by
  obtain ⟨p, fits, hp, c, hreaches, hend, _⟩ := compress_eq_ok hne h
  obtain ⟨hppem, hpoint⟩ := prolog_eq_ok hp
  constructor
  case shift =>
    intro x hx
    have hperm := (Progress.steady_of_reaches hreaches).emittedHints_perm hend
    exact (exists_steps_iff hx).mp
      (Progress.fitting_of_reaches hreaches x (hperm.mem_iff.mpr hx))
  case ppem =>
    have hlow := fits.le_basePpem
    have hhigh := fits.basePpem_le
    rw [hppem] at hlow hhigh
    exact ⟨_, isLeast_leastPpem hne, hlow, hhigh⟩
  case point =>
    intro q hq
    have hhigh := fits.basePoint_le
    rw [hpoint] at hhigh
    rcases phases.leastPoint_eq with hleast | ⟨_, hnone⟩
    · exact hq.unique hleast ▸ hhigh
    · obtain ⟨x, hx, hsome⟩ := hq.1
      rw [hnone x hx] at hsome
      contradiction

theorem compress_refuses {e : Error} (h : phases.compress = .error e) : e.Refuses := by
  cases hempty : phases.isEmpty with
  | true =>
    rw [compress_of_isEmpty hempty] at h
    contradiction
  | false =>
    rcases compress_eq_error hempty h with hp | ⟨_, _, c, hreaches, hfails⟩
    · exact prolog_refuses hp
    · obtain ⟨x, _, rfl, _⟩ := (Progress.steady_of_reaches hreaches).granularityExhausted hfails
      exact .granularity _

/-- A glyph has a stream exactly if it has no hints or encodable ones; otherwise a shift or a
base value is refused. -/
theorem encode_isOk_iff (phases : GlyphPhases) :
    ((∃ stream, phases.encode false = .ok stream) ↔
      (phases.post = .empty ∧ (phases.pre = none ∨ phases.pre = some .empty)) ∨
      phases.Encodable) ∧
    ∀ e, phases.encode false = .error e → e.Refuses := by
  rw [encode_unverified, ← isEmpty_iff]
  refine ⟨?_, fun _ => compress_refuses⟩
  cases hempty : phases.isEmpty with
  | true =>
    rw [compress_of_isEmpty hempty]
    simp
  | false =>
    constructor
    · rintro ⟨stream, h⟩
      exact Or.inr (encodable_of_compress hempty h)
    · rintro (h | h)
      · contradiction
      · exact compress_isOk h hempty

end GlyphPhases

end GlyphHints
