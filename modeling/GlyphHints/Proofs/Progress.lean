import GlyphHints.Proofs.EncoderSteps
import Mathlib.Logic.Relation

/-!
# The encoder, one step at a time

The encoder goes over phases, over their axes and over the plan of each axis. Here the three
loops are one transition system: a step processes a marker, enters an axis or emits RTGAH, and
it fails where the encoder fails. Every run of steps ends, and it ends with the encoder that
the loops return, or with their error.
-/
namespace GlyphHints

/-- An encoder on its way through a glyph. -/
structure Progress where
  encoder : Encoder
  /-- The markers of the present axis that are still to come. -/
  plan : List Marker
  /-- The axes of the present phase that are still to come. -/
  axes : List Axis
  phase : PhaseMap
  /-- The phase behind RTGAH, as long as it is still to come. -/
  later : Option PhaseMap
  /-- The hints emitted before RTGAH, once it is emitted. -/
  past : Option (List (Axis × Hint))
  /-- The hints emitted since. -/
  recorded : List (Axis × Hint)

namespace Progress

/-- In front of a phase. -/
def opening (encoder : Encoder) (phase : PhaseMap) (later : Option PhaseMap)
    (past : Option (List (Axis × Hint))) : Progress :=
  ⟨encoder, [], phase.axes, phase, later, past, []⟩

def start (e : Encoder) (phases : GlyphPhases) : Progress :=
  match phases.pre with
  | none => opening e phases.post none none
  | some pre => opening e pre (some phases.post) none

/-- The hints recorded once a marker is processed. -/
def record (c : Progress) (m : Marker) : List (Axis × Hint) :=
  c.recorded ++ (m.hint?.map (c.encoder.state.axis, ·)).toList

theorem length_record (c : Progress) (m : Marker) :
    (c.record m).length = c.recorded.length + m.hint?.toList.length := by
  cases hm : m.hint? <;> simp [record, hm]

/-- The plan of an axis, from the settings in effect. -/
def planFor (c : Progress) (axis : Axis) : Except Error (List Marker) :=
  Plan.ofHints (c.phase.flatten axis) (c.encoder.enterAxis axis).state.deltaShift
    (c.encoder.enterAxis axis).state.deltaBase

inductive Step (c : Progress) : Progress → Prop
  | marker {m : Marker} {plan : List Marker} {encoder : Encoder} : c.plan = m :: plan →
      c.encoder.addMarker m plan.head? = .ok encoder →
      Step c { c with encoder, plan, recorded := c.record m }
  | axis {axis : Axis} {axes : List Axis} {plan : List Marker} : c.plan = [] →
      c.axes = axis :: axes → c.planFor axis = .ok plan →
      Step c { c with encoder := c.encoder.enterAxis axis, plan, axes }
  | rtgah {later : PhaseMap} : c.plan = [] → c.axes = [] → c.later = some later →
      Step c (opening (c.encoder.emit [.rtgah] (c.encoder.state.reset .all)) later none
        (some c.recorded))

inductive Fails (c : Progress) (e : Error) : Prop
  | marker {m : Marker} {plan : List Marker} : c.plan = m :: plan →
      c.encoder.addMarker m plan.head? = .error e → Fails c e
  | axis {axis : Axis} {axes : List Axis} : c.plan = [] → c.axes = axis :: axes →
      c.planFor axis = .error e → Fails c e

/-- Nothing is left to be emitted. -/
structure Finished (c : Progress) : Prop where
  plan : c.plan = []
  axes : c.axes = []
  later : c.later = none

/-- Zero or more steps. -/
abbrev Reaches : Progress → Progress → Prop := Relation.ReflTransGen Step

/-! ## Every run ends -/

/-- What is left to be done: phases first, then axes, then markers. -/
def left (c : Progress) : Nat × Nat × Nat := (c.later.toList.length, c.axes.length, c.plan.length)

theorem Step.left_lt {c d : Progress} (h : c.Step d) :
    Prod.Lex (· < ·) (Prod.Lex (· < ·) (· < ·)) d.left c.left := by
  cases h with
  | marker hplan _ =>
    refine .right _ (.right _ ?_)
    simp [hplan]
  | axis _ haxes _ =>
    refine .right _ (.left _ _ ?_)
    simp [haxes]
  | rtgah _ _ hlater =>
    refine .left _ _ ?_
    simp [opening, hlater]

theorem wellFounded_step : WellFounded fun d c : Progress => c.Step d :=
  Subrelation.wf (fun h => h.left_lt)
    (InvImage.wf left (WellFounded.prod_lex Nat.lt_wfRel.wf
      (WellFounded.prod_lex Nat.lt_wfRel.wf Nat.lt_wfRel.wf)))

/-! ## The loops -/

/-- What the encoder does when the axes of a phase are done. -/
def endPhase (later : Option PhaseMap) (e : Encoder) : Except Error Encoder :=
  match later with
  | none => .ok e
  | some later => (e.emit [.rtgah] (e.state.reset .all)).addPhase later

/-- What the loops of the encoder return from here. -/
def complete (c : Progress) : Except Error Encoder := do
  let e ← c.encoder.addPlan c.plan
  let e ← c.axes.foldlM (fun e axis => e.addAxis c.phase axis) e
  endPhase c.later e

theorem complete_opening (e : Encoder) (phase : PhaseMap) (later : Option PhaseMap)
    (past : Option (List (Axis × Hint))) :
    (opening e phase later past).complete = e.addPhase phase >>= endPhase later := rfl

theorem addPhases_eq (e : Encoder) (phases : GlyphPhases) :
    e.addPhases phases = (start e phases).complete.map fun f => f.emit [.finish] f.state := by
  rcases phases with ⟨_ | pre, post⟩
  · simp only [start, complete_opening, Encoder.addPhases]
    cases h : e.addPhase post with
    | error x => simp [h, bind, Except.bind, pure, Except.pure, Except.map]
    | ok f => simp [h, bind, Except.bind, pure, Except.pure, Except.map, endPhase]
  · simp only [start, complete_opening, Encoder.addPhases]
    cases e.addPhase pre with
    | error => rfl
    | ok f =>
      cases h : (f.emit [.rtgah] (f.state.reset .all)).addPhase post <;>
        simp [h, bind, Except.bind, pure, Except.pure, Except.map, endPhase]

theorem addAxis_eq (c : Progress) (axis : Axis) : c.encoder.addAxis c.phase axis =
    c.planFor axis >>= (c.encoder.enterAxis axis).addPlan := rfl

theorem complete_of_axes {c : Progress} {axis : Axis} {axes : List Axis} (hplan : c.plan = [])
    (haxes : c.axes = axis :: axes) : c.complete = (do
      let plan ← c.planFor axis
      let e ← (c.encoder.enterAxis axis).addPlan plan
      let e ← axes.foldlM (fun e axis => e.addAxis c.phase axis) e
      endPhase c.later e) := by
  simp only [complete, hplan, haxes, Encoder.addPlan, List.foldlM_cons, bind_assoc]
  change (c.encoder.addAxis c.phase axis >>= _) = _
  rw [addAxis_eq, bind_assoc]

theorem Step.complete_eq {c d : Progress} (h : c.Step d) : c.complete = d.complete := by
  cases h with
  | marker hplan hmarker =>
    simp only [complete, hplan, Encoder.addPlan, hmarker]
    rfl
  | axis hplan haxes hfor =>
    rw [complete_of_axes hplan haxes, hfor]
    rfl
  | rtgah hplan haxes hlater =>
    simp only [complete, hplan, haxes, hlater]
    exact (bind_pure _).symm

theorem Fails.complete_eq {c : Progress} {e : Error} (h : c.Fails e) : c.complete = .error e := by
  cases h with
  | marker hplan hmarker =>
    simp only [complete, hplan, Encoder.addPlan, hmarker]
    rfl
  | axis hplan haxes hfor =>
    rw [complete_of_axes hplan haxes, hfor]
    rfl

theorem Finished.complete_eq {c : Progress} (h : c.Finished) : c.complete = .ok c.encoder := by
  simp only [complete, h.plan, h.axes, h.later]
  rfl

theorem progress (c : Progress) : c.Finished ∨ (∃ d, c.Step d) ∨ ∃ e, c.Fails e := by
  cases hplan : c.plan with
  | cons m plan =>
    cases hmarker : c.encoder.addMarker m plan.head? with
    | ok f => exact Or.inr (Or.inl ⟨_, .marker hplan hmarker⟩)
    | error e => exact Or.inr (Or.inr ⟨e, .marker hplan hmarker⟩)
  | nil =>
    cases haxes : c.axes with
    | cons axis axes =>
      cases hfor : c.planFor axis with
      | ok plan => exact Or.inr (Or.inl ⟨_, .axis hplan haxes hfor⟩)
      | error e => exact Or.inr (Or.inr ⟨e, .axis hplan haxes hfor⟩)
    | nil =>
      cases hlater : c.later with
      | some later => exact Or.inr (Or.inl ⟨_, .rtgah hplan haxes hlater⟩)
      | none => exact Or.inl ⟨hplan, haxes, hlater⟩

/-- Every run ends, with what the loops return. -/
theorem reaches_end (c : Progress) : ∃ d, c.Reaches d ∧ d.complete = c.complete ∧
    (d.Finished ∨ ∃ e, d.Fails e) := by
  -- The induction is on what is left to be done, since the length of a plan is not known
  -- before its axis is entered.
  induction c using wellFounded_step.induction with
  | _ c ih =>
    rcases c.progress with hfinished | ⟨d, hstep⟩ | hfails
    · exact ⟨c, .refl, rfl, Or.inl hfinished⟩
    · obtain ⟨f, hreaches, hcomplete, hend⟩ := ih d hstep
      exact ⟨f, .head hstep hreaches, hcomplete.trans hstep.complete_eq.symm, hend⟩
    · exact ⟨c, .refl, rfl, Or.inr hfails⟩

theorem complete_eq_ok {c : Progress} {e : Encoder} (h : c.complete = .ok e) :
    ∃ d, c.Reaches d ∧ d.Finished ∧ d.encoder = e := by
  obtain ⟨d, hreaches, hcomplete, hfinished | ⟨x, hfails⟩⟩ := c.reaches_end
  · rw [h, hfinished.complete_eq] at hcomplete
    exact ⟨d, hreaches, hfinished, Except.ok.inj hcomplete⟩
  · rw [h, hfails.complete_eq] at hcomplete
    contradiction

theorem complete_eq_error {c : Progress} {e : Error} (h : c.complete = .error e) :
    ∃ d, c.Reaches d ∧ d.Fails e := by
  obtain ⟨d, hreaches, hcomplete, hfinished | ⟨x, hfails⟩⟩ := c.reaches_end
  · rw [h, hfinished.complete_eq] at hcomplete
    contradiction
  · rw [h, hfails.complete_eq] at hcomplete
    exact ⟨d, hreaches, Except.error.inj hcomplete ▸ hfails⟩

end Progress

end GlyphHints
