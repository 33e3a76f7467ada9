import GlyphHints.Proofs.RunInvariants

/-!
# The decoder follows the encoder

If the base values are below every hint of a glyph, a decoder that replays what has been
emitted at any step of a run is in the very state the encoder keeps, and it has recorded the
hints the encoder has emitted. Each hint took one delta instruction, and RTGAH separates those
of the two phases.
-/
namespace GlyphHints

/-- Base values from which every hint of a glyph can be reached. -/
structure Base.Underlies (base : Base) (phases : GlyphPhases) : Prop where
  home_le : initialDeltaBase ≤ base.ppem
  reachable : ∀ x ∈ phases.entries, x.2.Reachable base

namespace Machine
variable {s : Machine} {h : Hint}

theorem fields_of_hint (hv : h.isValid = true) (hh : s.hint h.kind = h) :
    s.ppem = h.ppem ∧ s.shift = h.shift := by
  have hu := Hint.isUsable_of_isValid hv
  have hppem : s.ppem = h.ppem := congrArg Hint.ppem hh
  have hshift : s.shift.foldZero = h.shift := congrArg Hint.shift hh
  constructor
  · exact hppem
  cases hs : s.shift with
  | negativeZero =>
    rw [hs] at hshift
    rw [← hshift] at hu
    contradiction
  | pixels | infinite | nan => rwa [hs] at hshift

/-- A hint that the settings carry is emitted in its window. -/
theorem settled_delta {base : Base} (hhome : initialDeltaBase ≤ base.ppem)
    (hr : h.Reachable base) (hh : s.hint h.kind = h) (hvalid : s.settings.Valid initialDeltaBase)
    (hcarries : s.settings.Carries initialDeltaBase h) : s.Settled (.delta h.kind) := by
  obtain ⟨hppem, hshift⟩ := fields_of_hint hr.valid hh
  obtain ⟨hlow, hhigh⟩ := hcarries.window (hhome.trans hr.base_ppem)
  obtain ⟨k, hk⟩ := hvalid.spacing
  have hk : s.deltaBase = initialDeltaBase + deltaBaseSpan * k := hk
  have hmod : s.deltaBase % deltaBaseSpan = initialDeltaBase := by
    rw [hk, Nat.add_mul_mod_self_left]
    rfl
  have hgrains := (Shift.isRepresentable_iff (Hint.isUsable_of_isValid hr.valid)).mp
    hcarries.representable
  rw [← hppem] at hlow hhigh
  rw [← hshift] at hgrains
  exact ⟨hlow, hhigh, hmod, hvalid.deltaShift_le, hgrains⟩

end Machine

namespace Replay

theorem step_delta {s : Machine} {h : Hint} (hv : h.isValid = true) (hh : s.hint h.kind = h)
    (seen : GlyphPhases) : (⟨s, seen⟩ : Replay).step (.delta h.kind) =
      .ok ⟨s.advance, { seen with post := seen.post.add s.axis h hv }⟩ := by
  simp only [step, hh, PhaseMap.insert_of_isValid seen.post s.axis hv]
  rfl

end Replay

/-! ## States -/

namespace Progress
variable {c d : Progress} {base : Base} {phases : GlyphPhases}

/-- What a decoder has recorded is what has been emitted. -/
structure Holds (seen : GlyphPhases) (past : Option (List (Axis × Hint)))
    (recorded : List (Axis × Hint)) : Prop where
  post : ∀ x, x ∈ seen.post.entries ↔ x ∈ recorded
  pre : Option.Rel (fun m l => ∀ x, x ∈ m.entries ↔ x ∈ l) seen.pre past

/-- The decoder that replays the emitted instructions is in the state of the encoder. -/
def Tracked (base : Base) (c : Progress) : Prop :=
  ∃ seen, (Replay.start base).Run c.encoder.emitted.toList ⟨c.encoder.state, seen⟩ ∧
    Holds seen c.past c.recorded

theorem Steady.reachable_of_mem (hc : c.Steady base phases) (hbase : base.Underlies phases)
    {x : Hint} (hx : x ∈ Plan.hints c.plan) : x.Reachable base :=
  hbase.reachable _ (hc.conserves.mem_entries hx)

theorem Steady.processes (hc : c.Steady base phases) (hbase : base.Underlies phases)
    {m : Marker} {plan : List Marker} {f : Encoder} (hplan : c.plan = m :: plan)
    (hf : c.encoder.addMarker m plan.head? = .ok f) : c.encoder.Processes m f := by
  have hsound := hc.planned.sound_cons hplan
  refine Encoder.addMarker_processes hc.fresh.base_eq hc.planned.valid (by decide) hsound ?_ hf
  intro x hx
  exact hc.reachable_of_mem hbase (hplan ▸ hx)

theorem Steady.tracked_marker (hc : c.Steady base phases) (hbase : base.Underlies phases)
    {m : Marker} {plan : List Marker} {f : Encoder} (hplan : c.plan = m :: plan)
    (hf : c.encoder.addMarker m plan.head? = .ok f) (ht : c.Tracked base) :
    Tracked base { c with encoder := f, plan, recorded := c.record m } := by
  obtain ⟨seen, hrun, hholds⟩ := ht
  have hframe := hc.planned.frame_addMarker hplan hf
  cases hc.processes hbase hplan hf with
  | change hm hleads =>
    obtain ⟨is, hleads, hemitted⟩ := hleads
    refine ⟨seen, ?_, ?_⟩
    · rw [hemitted]
      exact hrun.append (Replay.run_of_leads hleads seen)
    · simpa [record, hm] using hholds
  | @hint h g hleads hg hh =>
    obtain ⟨is, hleads, hemitted⟩ := hleads
    have hr : h.Reachable base := by
      apply hc.reachable_of_mem hbase
      rw [hplan]
      exact List.mem_cons_self
    have hsettings : g.state.settings = c.encoder.state.settings := congrArg (·.2.2) hg
    have haxis : g.state.axis = c.encoder.state.axis := congrArg (·.1) hg
    have hsettled : g.state.Settled (.delta h.kind) :=
      Machine.settled_delta hbase.home_le hr hh (hsettings ▸ hc.planned.valid)
        (hsettings ▸ (hc.planned.sound_cons hplan).1)
    refine ⟨{ seen with post := seen.post.add g.state.axis h hr.valid }, ?_, ?_, hholds.pre⟩
    · rw [Encoder.toList_emit, hemitted, List.append_assoc]
      exact hrun.append ((Replay.run_of_leads hleads seen).append
        (.single hsettled (Replay.step_delta hr.valid hh seen)))
    · intro x
      simp [record, Marker.hint?, PhaseMap.mem_add, hholds.post, haxis, or_comm]

theorem Step.tracked (h : c.Step d) (hc : c.Steady base phases) (hbase : base.Underlies phases)
    (ht : c.Tracked base) : d.Tracked base := by
  cases h with
  | marker hplan hf => exact hc.tracked_marker hbase hplan hf ht
  | @axis axis axes plan hplan haxes _ =>
    obtain ⟨seen, hrun, hholds⟩ := ht
    refine ⟨seen, ?_, hholds⟩
    dsimp only [Encoder.enterAxis]
    split_ifs with heq
    -- Nothing is emitted on the axis the machine is on, where it stands at the base values.
    · have hmem : c.encoder.state.axis ∈ c.axes := by
        rw [haxes, heq]
        exact List.mem_cons_self
      rw [(hc.fresh.reset_eq hmem).2]
      exact hrun
    · have hhome := hc.planned.deltaBase_eq hplan
      rw [Encoder.toList_emit]
      refine hrun.append (.single ?_ ?_)
      · cases axis <;> exact hhome
      · cases axis <;> rfl
  | rtgah hplan _ _ =>
    obtain ⟨seen, hrun, hholds⟩ := ht
    refine ⟨⟨some seen.post, .empty⟩, ?_, ?_, .some hholds.post⟩
    · simp only [opening, Encoder.toList_emit]
      exact hrun.append (.single (hc.planned.deltaBase_eq hplan) rfl)
    · intro x
      exact Iff.rfl

theorem tracked_of_reaches (hbase : base.Underlies phases)
    (h : (start (.start base) phases).Reaches c) : c.Tracked base := by
  induction h with
  | refl =>
    rcases phases with ⟨_ | pre, post⟩ <;>
      exact ⟨⟨none, .empty⟩, .done _, fun _ => Iff.rfl, .none⟩
  | tail hreaches hstep ih => exact hstep.tracked (steady_of_reaches hreaches) hbase ih

end Progress

/-! ## Counts -/

def Instruction.isDelta : Instruction → Bool
  | .delta _ => true
  | _ => false

/-- Instructions within one phase, and the number of hints they emit. -/
structure Body (is : List Instruction) (n : Nat) : Prop where
  plain : ∀ i ∈ is, i ≠ .rtgah ∧ i ≠ .finish
  count : is.countP Instruction.isDelta = n

namespace Body
variable {is js : List Instruction} {m n : Nat}

theorem nil : Body [] 0 := ⟨by simp, rfl⟩

theorem append (h : Body is m) (k : Body js n) : Body (is ++ js) (m + n) := by
  constructor
  · intro i hi
    exact (List.mem_append.mp hi).elim (h.plain i) (k.plain i)
  · rw [List.countP_append, h.count, k.count]

theorem of_quiet (h : ∀ i ∈ is, i.isQuiet = true) : Body is 0 := by
  constructor
  · intro i hi
    have hq := h i hi
    constructor <;> rintro rfl <;> contradiction
  · apply List.countP_eq_zero.mpr
    intro i hi
    have hq := h i hi
    cases i with
    | delta => contradiction
    | _ => exact Bool.false_ne_true

theorem delta (kind : DeltaKind) : Body [.delta kind] 1 := ⟨by simp, rfl⟩

theorem setAxis (axis : Axis) : Body [.misc (.setAxis axis)] 0 := ⟨by simp, rfl⟩

theorem finish_not_mem (h : Body is n) : .finish ∉ is := fun hm => (h.plain _ hm).2 rfl

end Body

namespace Encoder
variable {e f : Encoder}

theorem Processes.body {m : Marker} (h : e.Processes m f) :
    ∃ is, f.emitted.toList = e.emitted.toList ++ is ∧ Body is m.hint?.toList.length := by
  cases h with
  | change hm hleads =>
    obtain ⟨is, hleads, hemitted⟩ := hleads
    exact ⟨is, hemitted, hm ▸ .of_quiet hleads.isQuiet⟩
  | @hint h g hleads _ _ =>
    obtain ⟨is, hleads, hemitted⟩ := hleads
    refine ⟨is ++ [.delta h.kind], ?_, (Body.of_quiet hleads.isQuiet).append (.delta h.kind)⟩
    rw [toList_emit, hemitted, List.append_assoc]

theorem body_enterAxis (e : Encoder) (axis : Axis) :
    ∃ is, (e.enterAxis axis).emitted.toList = e.emitted.toList ++ is ∧ Body is 0 := by
  unfold enterAxis
  split_ifs
  · exact ⟨[], (List.append_nil _).symm, .nil⟩
  · exact ⟨_, e.toList_emit _ _, .setAxis axis⟩

end Encoder

namespace Progress
variable {c d : Progress} {base : Base} {phases : GlyphPhases}

/-- As many delta instructions have been emitted in each phase as hints. -/
inductive Counted (c : Progress) : Prop
  | first : c.past = none → Body c.encoder.emitted.toList c.recorded.length → Counted c
  | second {past : List (Axis × Hint)} {before after : List Instruction} :
      c.past = some past → c.encoder.emitted.toList = before ++ .rtgah :: after →
      Body before past.length → Body after c.recorded.length → Counted c

theorem Counted.extend {is : List Instruction} {n : Nat} (h : c.Counted)
    (hpast : d.past = c.past)
    (hemitted : d.encoder.emitted.toList = c.encoder.emitted.toList ++ is) (his : Body is n)
    (hrecorded : d.recorded.length = c.recorded.length + n) : d.Counted := by
  cases h with
  | first hnone hbody =>
    apply Counted.first (hpast.trans hnone)
    rw [hemitted, hrecorded]
    exact hbody.append his
  | @second past before after hsome hsplit hbefore hafter =>
    have hsplit' : d.encoder.emitted.toList = before ++ .rtgah :: (after ++ is) := by
      rw [hemitted, hsplit, List.append_assoc]
      rfl
    apply Counted.second (hpast.trans hsome) hsplit' hbefore
    rw [hrecorded]
    exact hafter.append his

theorem Step.counted (h : c.Step d) (hc : c.Steady base phases) (hbase : base.Underlies phases)
    (hcounted : c.Counted) : d.Counted := by
  cases h with
  | @marker m plan f hplan hf =>
    obtain ⟨is, hemitted, hbody⟩ := (hc.processes hbase hplan hf).body
    exact hcounted.extend rfl hemitted hbody (c.length_record m)
  | @axis axis _ _ _ _ _ =>
    obtain ⟨is, hemitted, hbody⟩ := c.encoder.body_enterAxis axis
    exact hcounted.extend rfl hemitted hbody rfl
  | @rtgah later _ _ hlater =>
    cases hcounted with
    | first _ hbody =>
      exact .second rfl (by simp only [opening, Encoder.toList_emit]) hbody .nil
    | second hpast _ _ _ =>
      rw [(hc.conserves.serves.of_later hlater).2.2] at hpast
      contradiction

theorem counted_of_reaches (hbase : base.Underlies phases)
    (h : (start (.start base) phases).Reaches c) : c.Counted := by
  induction h with
  | refl =>
    rcases phases with ⟨_ | pre, post⟩ <;> exact .first rfl .nil
  | tail hreaches hstep ih => exact hstep.counted (steady_of_reaches hreaches) hbase ih

theorem Counted.finish_not_mem (h : c.Counted) : .finish ∉ c.encoder.emitted.toList := by
  cases h with
  | first _ hbody => exact hbody.finish_not_mem
  | second _ hsplit hbefore hafter =>
    rw [hsplit, List.mem_append, List.mem_cons]
    rintro (hmem | hmem | hmem)
    · exact hbefore.finish_not_mem hmem
    · contradiction
    · exact hafter.finish_not_mem hmem

end Progress

end GlyphHints
