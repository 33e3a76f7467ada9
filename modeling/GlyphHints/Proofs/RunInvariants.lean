import GlyphHints.Proofs.Progress

/-!
# Invariants of a run

At every step of a run the settings suit the plan ahead, and the recorded hints together with
the hints still to be emitted are those of the phase. The first axis of a phase is entered at
the base values, so entering it needs no instruction if the machine is already there.
-/
namespace GlyphHints

namespace GlyphPhases

/-- The hints of both phases. -/
def entries (phases : GlyphPhases) : List (Axis × Hint) :=
  (phases.pre.map PhaseMap.entries).getD [] ++ phases.post.entries

end GlyphPhases

namespace Encoder

theorem axis_enterAxis (e : Encoder) (axis : Axis) : (e.enterAxis axis).state.axis = axis := by
  unfold enterAxis
  split_ifs with h
  · exact h
  · rfl

theorem base_enterAxis (e : Encoder) (axis : Axis) :
    (e.enterAxis axis).state.base = e.state.base := by
  unfold enterAxis
  split_ifs <;> rfl

theorem settings_enterAxis (e : Encoder) (axis : Axis) :
    (e.enterAxis axis).state.settings = e.state.settings := by
  unfold enterAxis
  split_ifs <;> rfl

end Encoder

namespace Progress
variable {c d : Progress} {base : Base} {phases : GlyphPhases}

/-! ## Settings -/

/-- The settings suit the plan ahead, and at its end the delta base is the initial one. -/
structure Planned (c : Progress) : Prop where
  valid : c.encoder.state.settings.Valid initialDeltaBase
  sound : Plan.Sound initialDeltaBase c.encoder.state.settings c.plan
  returns : (c.encoder.state.settings.afterAll c.plan).deltaBase = initialDeltaBase

theorem Planned.deltaBase_eq (h : c.Planned) (hplan : c.plan = []) :
    c.encoder.state.deltaBase = initialDeltaBase := by
  have hreturns := h.returns
  rw [hplan] at hreturns
  exact hreturns

theorem Planned.settings_eq (h : c.Planned) (hplan : c.plan = []) :
    c.encoder.state.settings = ⟨c.encoder.state.deltaShift, initialDeltaBase⟩ := by
  rw [← h.deltaBase_eq hplan]
  rfl

theorem Planned.sound_cons {m : Marker} {plan : List Marker} (h : c.Planned)
    (hplan : c.plan = m :: plan) :
    Plan.Sound initialDeltaBase c.encoder.state.settings (m :: plan) := hplan ▸ h.sound

theorem Planned.frame_addMarker {m : Marker} {plan : List Marker} {f : Encoder}
    (h : c.Planned) (hplan : c.plan = m :: plan)
    (hf : c.encoder.addMarker m plan.head? = .ok f) : f.state.frame =
      (c.encoder.state.axis, c.encoder.state.base, c.encoder.state.settings.after m) := by
  obtain ⟨g, hg, hframe⟩ := Encoder.addMarker_isOk h.valid (h.sound_cons hplan).1
  rwa [Except.ok.inj (hf.symm.trans hg)]

/-- The plan of an axis suits the settings it starts from. -/
theorem Planned.planFor_eq_ok {axis : Axis} {plan : List Marker} (h : c.Planned)
    (hplan : c.plan = []) (hfor : c.planFor axis = .ok plan) :
    Plan.Sound initialDeltaBase c.encoder.state.settings plan ∧
      (c.encoder.state.settings.afterAll plan).deltaBase = initialDeltaBase ∧
      (Plan.hints plan).Perm ((c.phase.entriesOn axis).map (·.2)) := by
  have hsettings := c.encoder.settings_enterAxis axis
  rw [h.settings_eq hplan] at hsettings ⊢
  have hshift : (c.encoder.enterAxis axis).state.deltaShift = c.encoder.state.deltaShift :=
    congrArg Settings.deltaShift hsettings
  have hbase : (c.encoder.enterAxis axis).state.deltaBase = initialDeltaBase :=
    congrArg Settings.deltaBase hsettings
  rw [planFor, hshift, hbase] at hfor
  obtain ⟨hsound, hreturns, hperm⟩ := Plan.ofHints_eq_ok h.valid.deltaShift_le hfor
  have hflat := c.phase.flatten_perm axis
  have hnodup := hflat.nodup_iff.mpr (c.phase.nodup_map_snd_entriesOn axis)
  exact ⟨hsound, hreturns, (hperm.trans (Ascending.ofList_perm hnodup)).trans hflat⟩

theorem Step.planned (h : c.Step d) (hc : c.Planned) : d.Planned := by
  cases h with
  | @marker m plan f hplan hf =>
    have hsettings : f.state.settings = c.encoder.state.settings.after m :=
      congrArg (·.2.2) (hc.frame_addMarker hplan hf)
    have hsound := hc.sound_cons hplan
    have hreturns := hc.returns
    rw [hplan] at hreturns
    constructor
    · exact hsettings ▸ hc.valid.after hsound.1
    · exact hsettings ▸ hsound.2
    · exact hsettings ▸ hreturns
  | @axis axis axes plan hplan _ hfor =>
    have hsettings := c.encoder.settings_enterAxis axis
    obtain ⟨hsound, hreturns, _⟩ := hc.planFor_eq_ok hplan hfor
    exact ⟨hsettings ▸ hc.valid, hsettings ▸ hsound, hsettings ▸ hreturns⟩
  | rtgah hplan _ _ => exact ⟨hc.valid, trivial, hc.deltaBase_eq hplan⟩

/-! ## Hints -/

/-- The hints of the phase that are still to be emitted. -/
def remaining (c : Progress) : List (Axis × Hint) :=
  (Plan.hints c.plan).map (c.encoder.state.axis, ·) ++ c.axes.flatMap c.phase.entriesOn

/-- Which phase a run is in, and what lies behind it. -/
inductive Serves (phases : GlyphPhases) (c : Progress) : Prop
  | only : phases.pre = none → c.phase = phases.post → c.later = none → c.past = none →
      Serves phases c
  | first : phases.pre = some c.phase → c.later = some phases.post → c.past = none →
      Serves phases c
  | second {pre : PhaseMap} {past : List (Axis × Hint)} : phases.pre = some pre →
      c.phase = phases.post → c.later = none → c.past = some past → past.Perm pre.entries →
      Serves phases c

/-- Where RTGAH is still to come, the first phase is under way. -/
theorem Serves.of_later {later : PhaseMap} (h : c.Serves phases) (hlater : c.later = some later) :
    phases.pre = some c.phase ∧ phases.post = later ∧ c.past = none := by
  cases h with
  | only _ _ hnone _ | second _ _ hnone _ _ =>
    rw [hlater] at hnone
    contradiction
  | first hpre hsome hpast =>
    rw [hlater] at hsome
    exact ⟨hpre, (Option.some.inj hsome).symm, hpast⟩

/-- Otherwise the last phase is, and the first one, if there is any, has been emitted. -/
theorem Serves.of_last (h : c.Serves phases) (hlater : c.later = none) :
    c.phase = phases.post ∧ ((phases.pre = none ∧ c.past = none) ∨
      ∃ pre past, phases.pre = some pre ∧ c.past = some past ∧ past.Perm pre.entries) := by
  cases h with
  | only hpre hphase _ hpast => exact ⟨hphase, Or.inl ⟨hpre, hpast⟩⟩
  | first _ hsome _ =>
    rw [hlater] at hsome
    contradiction
  | second hpre hphase _ hpast hperm => exact ⟨hphase, Or.inr ⟨_, _, hpre, hpast, hperm⟩⟩

theorem Serves.mem_entries (h : c.Serves phases) {x : Axis × Hint} (hx : x ∈ c.phase.entries) :
    x ∈ phases.entries := by
  cases h with
  | only _ hphase _ _ | second _ hphase _ _ _ =>
    rw [hphase] at hx
    exact List.mem_append_right _ hx
  | first hpre _ _ =>
    apply List.mem_append_left
    rw [hpre]
    exact hx

/-- No hint of the phase is lost or emitted twice. -/
structure Conserves (phases : GlyphPhases) (c : Progress) : Prop where
  serves : c.Serves phases
  perm : (c.recorded ++ c.remaining).Perm c.phase.entries

theorem Conserves.recorded_perm (h : c.Conserves phases) (hplan : c.plan = [])
    (haxes : c.axes = []) : c.recorded.Perm c.phase.entries := by
  have hperm := h.perm
  rw [remaining, hplan, haxes] at hperm
  simpa [Plan.hints] using hperm

/-- What the plan holds belongs to the glyph. -/
theorem Conserves.mem_entries (h : c.Conserves phases) {x : Hint}
    (hx : x ∈ Plan.hints c.plan) : (c.encoder.state.axis, x) ∈ phases.entries := by
  apply h.serves.mem_entries
  apply h.perm.subset
  exact List.mem_append_right _ (List.mem_append_left _ (List.mem_map_of_mem hx))

theorem conserves_opening {e : Encoder} {phase : PhaseMap} {later : Option PhaseMap}
    {past : Option (List (Axis × Hint))} (h : (opening e phase later past).Serves phases) :
    (opening e phase later past).Conserves phases :=
  ⟨h, phase.flatMap_entriesOn_perm⟩

theorem map_pair_perm {axis : Axis} {phase : PhaseMap} {hints : List Hint}
    (h : hints.Perm ((phase.entriesOn axis).map (·.2))) :
    (hints.map (axis, ·)).Perm (phase.entriesOn axis) := by
  rw [← phase.map_snd_entriesOn axis]
  exact h.map _

theorem Serves.congr (h : c.Serves phases) (hphase : d.phase = c.phase)
    (hlater : d.later = c.later) (hpast : d.past = c.past) : d.Serves phases := by
  cases h with
  | only h₁ h₂ h₃ h₄ => exact .only h₁ (hphase.trans h₂) (hlater.trans h₃) (hpast.trans h₄)
  | first h₁ h₂ h₃ => exact .first (hphase ▸ h₁) (hlater.trans h₂) (hpast.trans h₃)
  | second h₁ h₂ h₃ h₄ h₅ =>
    exact .second h₁ (hphase.trans h₂) (hlater.trans h₃) (hpast.trans h₄) h₅

theorem Step.conserves (h : c.Step d) (hplanned : c.Planned) (hc : c.Conserves phases) :
    d.Conserves phases := by
  cases h with
  | @marker m plan f hplan hf =>
    have haxis : f.state.axis = c.encoder.state.axis :=
      congrArg (·.1) (hplanned.frame_addMarker hplan hf)
    constructor
    · exact hc.serves.congr rfl rfl rfl
    -- The hint of the marker, if it is one, goes from the plan to what is recorded.
    have hperm := hc.perm
    have hhints : Plan.hints (m :: plan) = m.hint?.toList ++ Plan.hints plan := by
      cases hm : m.hint? <;> simp [Plan.hints, hm]
    rw [remaining, hplan, hhints] at hperm
    simp only [remaining, haxis, record]
    cases hm : m.hint? <;> simpa [hm] using hperm
  | @axis axis axes plan hplan haxes hfor =>
    constructor
    · exact hc.serves.congr rfl rfl rfl
    -- The hints of the axis go into its plan, in another order.
    obtain ⟨_, _, hhints⟩ := hplanned.planFor_eq_ok hplan hfor
    have hperm := hc.perm
    rw [remaining, hplan, haxes] at hperm
    rw [remaining, c.encoder.axis_enterAxis]
    have hfront := (map_pair_perm hhints).append_right (axes.flatMap c.phase.entriesOn)
    exact (hfront.append_left c.recorded).trans hperm
  | @rtgah later hplan haxes hlater =>
    obtain ⟨hpre, hpost, _⟩ := hc.serves.of_later hlater
    apply conserves_opening
    exact .second hpre hpost.symm rfl rfl (hc.recorded_perm hplan haxes)

/-! ## Axes -/

/-- The machine stands at the base values wherever it may have to enter its own axis. -/
structure Fresh (base : Base) (c : Progress) : Prop where
  base_eq : c.encoder.state.base = base
  nodup : c.axes.Nodup
  reset_eq : c.encoder.state.axis ∈ c.axes →
    c.plan = [] ∧ c.encoder.state.reset .all = c.encoder.state

theorem Step.fresh (h : c.Step d) (hplanned : c.Planned) (hc : c.Fresh base) :
    d.Fresh base := by
  cases h with
  | @marker m plan f hplan hf =>
    have hframe := hplanned.frame_addMarker hplan hf
    have haxis : f.state.axis = c.encoder.state.axis := congrArg (·.1) hframe
    have hbase : f.state.base = c.encoder.state.base := congrArg (·.2.1) hframe
    refine ⟨hbase.trans hc.base_eq, hc.nodup, fun hmem => ?_⟩
    -- While a plan is under way, its axis is no longer to come.
    have hnil := (hc.reset_eq (haxis ▸ hmem)).1
    rw [hplan] at hnil
    contradiction
  | @axis axis axes plan _ haxes _ =>
    have hnodup := hc.nodup
    rw [haxes] at hnodup
    obtain ⟨hnew, hrest⟩ := List.nodup_cons.mp hnodup
    refine ⟨(c.encoder.base_enterAxis axis).trans hc.base_eq, hrest, fun hmem => ?_⟩
    rw [c.encoder.axis_enterAxis] at hmem
    exact absurd hmem hnew
  | @rtgah later _ _ _ => exact ⟨hc.base_eq, later.nodup_axes, fun _ => ⟨rfl, rfl⟩⟩

/-! ## Runs -/

/-- What holds throughout a run. -/
structure Steady (base : Base) (phases : GlyphPhases) (c : Progress) : Prop where
  planned : c.Planned
  conserves : c.Conserves phases
  fresh : c.Fresh base

theorem steady_start (base : Base) (phases : GlyphPhases) :
    (start (.start base) phases).Steady base phases := by
  have hvalid : (⟨initialDeltaShift, initialDeltaBase⟩ : Settings).Valid initialDeltaBase :=
    ⟨by decide, 0, rfl⟩
  rcases phases with ⟨_ | pre, post⟩
  · exact ⟨⟨hvalid, trivial, rfl⟩, conserves_opening (.only rfl rfl rfl rfl),
      rfl, post.nodup_axes, fun _ => ⟨rfl, rfl⟩⟩
  · exact ⟨⟨hvalid, trivial, rfl⟩, conserves_opening (.first rfl rfl rfl),
      rfl, pre.nodup_axes, fun _ => ⟨rfl, rfl⟩⟩

theorem Step.steady (h : c.Step d) (hc : c.Steady base phases) : d.Steady base phases :=
  ⟨h.planned hc.planned, h.conserves hc.planned hc.conserves, h.fresh hc.planned hc.fresh⟩

theorem steady_of_reaches (h : (start (.start base) phases).Reaches c) :
    c.Steady base phases := by
  induction h with
  | refl => exact steady_start base phases
  | tail _ hstep ih => exact hstep.steady ih

/-- A run fails only where a shift of the glyph fits no delta shift. -/
theorem Steady.granularityExhausted (h : c.Steady base phases) {e : Error} (hfails : c.Fails e) :
    ∃ x ∈ phases.entries, e = .granularityExhausted x.2.shift ∧
      ∀ r ≤ maxDeltaShift, x.2.shift.isRepresentable r = false := by
  cases hfails with
  | marker hplan hmarker =>
    have hadmits := (h.planned.sound_cons hplan).1
    obtain ⟨f, hf, _⟩ := Encoder.addMarker_isOk h.planned.valid hadmits
    rw [hmarker] at hf
    contradiction
  | axis _ _ hfor =>
    obtain ⟨x, hx, hexhausted⟩ := Plan.ofHints_eq_error hfor
    obtain ⟨y, hy, rfl⟩ := List.mem_map.mp ((c.phase.flatten_perm _).subset hx)
    have hmem := (PhaseMap.mem_entriesOn.mp hy).1
    exact ⟨y, h.conserves.serves.mem_entries hmem, hexhausted⟩

/-- At the end every hint of the last phase is recorded. -/
theorem Steady.recorded_perm (h : c.Steady base phases) (hend : c.Finished) :
    c.recorded.Perm phases.post.entries := by
  have hperm := h.conserves.recorded_perm hend.plan hend.axes
  rwa [(h.conserves.serves.of_last hend.later).1] at hperm

end Progress

end GlyphHints
