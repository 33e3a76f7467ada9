import GlyphHints.Proofs.Distances
import GlyphHints.Proofs.PhaseMap
import GlyphHints.Proofs.Plan
import GlyphHints.Proofs.Runs

/-!
# What the encoder emits for a marker

The encoder sets the fields of its state to the values it aims at. Where the base values are
not beyond the hint and the delta shift in effect can represent its shift, what it emits on the
way leads a machine to the very same state, in front of the hint's delta instruction. Until
then axis, base values and settings stay as they are.
-/
namespace GlyphHints

namespace Machine

/-- What does not change on the way to a hint. -/
def frame (s : Machine) : Axis × Base × Settings := (s.axis, s.base, s.settings)

end Machine

/-- A hint that can be reached from base values by adding 32-bit numbers to them. -/
structure Hint.Reachable (base : Base) (h : Hint) : Prop where
  valid : h.isValid = true
  ppem_le : h.ppem + deltaBaseSpan ≤ greatestWord
  point_le : ∀ p ∈ h.point, p ≤ greatestWord
  base_ppem : base.ppem ≤ h.ppem
  base_point : ∀ p ∈ h.point, base.point ≤ p

theorem Hint.isUsable_of_isValid {h : Hint} (hv : h.isValid = true) :
    h.shift.isUsable = true := by
  unfold isValid at hv
  exact (Bool.and_eq_true_iff.mp hv).1

theorem Grain.ofShift_bounds {shift : Shift} {d : Nat} (hu : shift.isUsable = true)
    (hrep : shift.isRepresentable d = true) : 0 ≤ ofShift shift d ∧ ofShift shift d ≤ 15 := by
  obtain ⟨n, _, hle, rfl⟩ := (Shift.isRepresentable_iff hu).mp hrep
  rw [ofShift_ofSteps (by omega)]
  exact ofSteps_bounds hle

namespace Encoder
variable {e f g : Encoder} {h : Hint} {next : Option Hint}

/-- One encoder comes from another by emitting what leads its machine on. -/
def Leads (e f : Encoder) : Prop :=
  ∃ is, e.state.Leads is f.state ∧ f.emitted.toList = e.emitted.toList ++ is

theorem Leads.refl (e : Encoder) : e.Leads e := ⟨[], .done _, (List.append_nil _).symm⟩

theorem Leads.trans (h : e.Leads f) (k : f.Leads g) : e.Leads g := by
  obtain ⟨is, hi, hemit⟩ := h
  obtain ⟨js, hj, hemit'⟩ := k
  exact ⟨is ++ js, hi.append hj, by rw [hemit', hemit, List.append_assoc]⟩

theorem toList_emit (e : Encoder) (is : List Instruction) (s : Machine) :
    (e.emit is s).emitted.toList = e.emitted.toList ++ is := by simp [emit]

theorem emit_nil (e : Encoder) : e.emit [] e.state = e := by simp [emit]

theorem leads_emit {is : List Instruction} {s : Machine} (h : e.state.Leads is s) :
    e.Leads (e.emit is s) := ⟨is, h, e.toList_emit is s⟩

/-! ## The instructions of a step -/

section Steps
variable {P : Instruction → Prop}

theorem forall_mem_repeated {m : Misc} (h : P (.misc m)) (times : Nat) :
    ∀ i ∈ repeated times m, P i := fun _ hi => List.eq_of_mem_replicate hi ▸ h

/-- What is left of a distance. -/
theorem forall_mem_rest {p : Prop} [Decidable p] {i : Instruction} (h : P i) :
    ∀ j ∈ (if p then [] else [i]), P j := by
  split_ifs
  · exact List.forall_mem_nil _
  · exact List.forall_mem_singleton.mpr h

theorem forall_mem_ppemSteps (h : ∀ n, P (.addPpem n)) (distance : Nat) :
    ∀ i ∈ ppemSteps distance, P i :=
  List.forall_mem_append.mpr
    ⟨fun _ hi => List.eq_of_mem_replicate hi ▸ h 15, forall_mem_rest (h _)⟩

theorem forall_mem_pointSteps (h64 : P (.misc .addPoint64)) (h32 : P (.misc .addPoint32))
    (h : ∀ n, P (.addPoint n)) (distance : Nat) : ∀ i ∈ pointSteps distance, P i := by
  refine List.forall_mem_append.mpr ⟨?_, forall_mem_rest (h _)⟩
  refine List.forall_mem_append.mpr ⟨?_, fun _ hi => List.eq_of_mem_replicate hi ▸ h 15⟩
  exact List.forall_mem_append.mpr ⟨forall_mem_repeated h64 _, forall_mem_repeated h32 _⟩

theorem forall_mem_deltaShiftSteps (hup : P (.misc .incrementDeltaShift))
    (hdown : P (.misc .decrementDeltaShift)) (first last : Nat) :
    ∀ i ∈ deltaShiftSteps first last, P i :=
  List.forall_mem_append.mpr ⟨forall_mem_repeated hup _, forall_mem_repeated hdown _⟩

end Steps

/-! ## Changes between hints -/

theorem leads_setMask (e : Encoder) (mask : Mask) : e.Leads (e.setMask mask) := by
  unfold setMask
  split_ifs
  · exact .refl e
  · exact leads_emit (.single rfl rfl)

theorem frame_setMask (e : Encoder) (mask : Mask) :
    (e.setMask mask).state.frame = e.state.frame := by
  unfold setMask
  split_ifs <;> rfl

theorem leads_setDeltaShift {d : Nat} (hd : d ≤ maxDeltaShift) : e.Leads (e.setDeltaShift d) :=
  leads_emit (Machine.leads_deltaShiftSteps hd)

theorem setDeltaShift_self (e : Encoder) : e.setDeltaShift e.state.deltaShift = e := by
  have hnil : deltaShiftSteps e.state.deltaShift e.state.deltaShift = [] := by
    simp [deltaShiftSteps, repeated]
  rw [setDeltaShift, hnil]
  exact e.emit_nil

/-- Between two bases with the same home there is a whole number of windows. -/
theorem spacing_mod {home a b : Nat} (ha : ∃ k, a = home + deltaBaseSpan * k)
    (hb : ∃ k, b = home + deltaBaseSpan * k) : ((b - a) + (a - b)) % deltaBaseSpan = 0 := by
  obtain ⟨j, rfl⟩ := ha
  obtain ⟨k, rfl⟩ := hb
  simp only [deltaBaseSpan]
  omega

theorem setDeltaBase_eq_ok {b : Nat}
    (hmod : ((b - e.state.deltaBase) + (e.state.deltaBase - b)) % deltaBaseSpan = 0) :
    ∃ f, e.setDeltaBase b = .ok f ∧ f.state = { e.state with deltaBase := b } ∧
      (b ≤ greatestWord → e.Leads f) := by
  unfold setDeltaBase Plan.baseSteps
  rw [if_pos hmod]
  exact ⟨_, rfl, rfl, fun hb => leads_emit (Machine.leads_baseSteps hb hmod)⟩

/-! ## The way to a hint -/

theorem state_resetFor (e : Encoder) (h : Hint) : (e.resetFor h).state =
    e.state.reset ⟨h.ppem < e.state.ppem, h.point.any (· < e.state.point), false⟩ := by
  dsimp only [resetFor]
  split_ifs with hempty
  · rw [Mask.isEmpty, decide_eq_true_iff] at hempty
    rw [hempty]
    rfl
  · rfl

theorem leads_resetFor (e : Encoder) (h : Hint) : e.Leads (e.resetFor h) := by
  dsimp only [resetFor]
  split_ifs
  · exact .refl e
  · exact leads_emit (.single rfl rfl)

theorem resetFor_ppem_le (hb : e.state.base.ppem ≤ h.ppem) :
    (e.resetFor h).state.ppem ≤ h.ppem := by
  rw [state_resetFor]
  by_cases hlt : h.ppem < e.state.ppem
  · simpa [Machine.reset, hlt] using hb
  · simpa [Machine.reset, hlt] using Nat.le_of_not_lt hlt

theorem resetFor_point_le (hb : ∀ p ∈ h.point, e.state.base.point ≤ p) {p : Nat}
    (hp : p ∈ h.point) : (e.resetFor h).state.point ≤ p := by
  rw [state_resetFor]
  have hpoint : h.point = some p := hp
  by_cases hlt : p < e.state.point
  · simpa [Machine.reset, hpoint, hlt] using hb p hp
  · simpa [Machine.reset, hpoint, hlt] using Nat.le_of_not_lt hlt

theorem leads_matchPpem {ppem : Nat} (hle : e.state.ppem ≤ ppem) (hw : ppem ≤ greatestWord) :
    e.Leads (e.matchPpem ppem) := by
  have hsum : e.state.ppem + (ppem - e.state.ppem) = ppem := Nat.add_sub_of_le hle
  have hleads := Machine.leads_ppemSteps (s := e.state) (d := ppem - e.state.ppem) (by omega)
  rw [hsum] at hleads
  exact leads_emit hleads

/-- The grain of a representable shift fits its nybble. -/
theorem grain_bounds {shift : Shift} {d : Nat} (hu : shift.isUsable = true)
    (hrep : shift.isRepresentable d = true) :
    0 ≤ Grain.ofSteps (shift.steps d) ∧ Grain.ofSteps (shift.steps d) ≤ 15 := by
  obtain ⟨n, _, hle, rfl⟩ := (Shift.isRepresentable_iff hu).mp hrep
  rw [Shift.steps_ofSteps (by omega)]
  exact Grain.ofSteps_bounds hle

theorem leads_setShift {s : Machine} {shift : Shift} (hu : shift.isUsable = true)
    (hrep : shift.isRepresentable s.deltaShift = true) :
    s.Leads [.setShift (Fin.ofNat 16 (Grain.ofSteps (shift.steps s.deltaShift)).toNat)]
      { s with shift } := by
  obtain ⟨n, hn, hle, hshift⟩ := (Shift.isRepresentable_iff hu).mp hrep
  obtain ⟨hlow, hhigh⟩ := grain_bounds hu hrep
  have hsteps : shift.steps s.deltaShift = n := by
    rw [hshift]
    exact Shift.steps_ofSteps (by omega) _
  rw [hsteps] at hlow hhigh ⊢
  have hval : ((Fin.ofNat 16 (Grain.ofSteps n).toNat).val : Int) = Grain.ofSteps n := by
    rw [Fin.val_ofNat, Nat.mod_eq_of_lt (by omega)]
    omega
  refine .single rfl ?_
  rw [Machine.step, hval, Grain.toShift_ofSteps hn (by omega), ← hshift]

theorem matchShift_isOk {shift : Shift}
    (hrep : shift.isRepresentable e.state.deltaShift = true) :
    ∃ f, e.matchShift shift = .ok f ∧ f.state = { e.state with shift } ∧
      (shift.isUsable = true → e.Leads f) := by
  unfold matchShift
  split_ifs with heq
  · exact ⟨e, rfl, by rw [heq], fun _ => .refl e⟩
  · rw [Shift.fit_self hrep]
    simp only [bind, Except.bind, setDeltaShift_self]
    exact ⟨_, rfl, rfl, fun hu => leads_emit (leads_setShift hu hrep)⟩

/-- The encoder once it has taken over a shift, if it can. -/
def takeShift (e : Encoder) (shift : Shift) : Encoder :=
  (e.matchShift shift).toOption.getD e

theorem matchShift_eq {shift : Shift}
    (hrep : shift.isRepresentable e.state.deltaShift = true) :
    e.matchShift shift = .ok (e.takeShift shift) := by
  obtain ⟨f, hf, _⟩ := matchShift_isOk hrep
  rw [takeShift, hf]
  rfl

theorem state_takeShift {shift : Shift}
    (hrep : shift.isRepresentable e.state.deltaShift = true) :
    (e.takeShift shift).state = { e.state with shift } := by
  obtain ⟨f, hf, hstate, _⟩ := matchShift_isOk hrep
  rwa [Except.ok.inj ((matchShift_eq hrep).symm.trans hf)]

theorem leads_takeShift {shift : Shift} (hu : shift.isUsable = true)
    (hrep : shift.isRepresentable e.state.deltaShift = true) : e.Leads (e.takeShift shift) := by
  obtain ⟨f, hf, _, hleads⟩ := matchShift_isOk hrep
  rw [Except.ok.inj ((matchShift_eq hrep).symm.trans hf)]
  exact hleads hu

theorem state_matchPoint (e : Encoder) (point : Option Nat) : (e.matchPoint point).state =
    { e.state with point := point.getD e.state.point } := by
  cases point <;> rfl

theorem leads_matchPoint {point : Option Nat} (hle : ∀ p ∈ point, e.state.point ≤ p)
    (hw : ∀ p ∈ point, p ≤ greatestWord) : e.Leads (e.matchPoint point) := by
  cases point with
  | none => exact .refl e
  | some p =>
    have hsum : e.state.point + (p - e.state.point) = p := Nat.add_sub_of_le (hle p rfl)
    have hleads := Machine.leads_pointSteps (s := e.state) (d := p - e.state.point)
      (by rw [hsum]; exact hw p rfl)
    rw [hsum] at hleads
    exact leads_emit hleads

theorem state_matchRepeat (e : Encoder) (h : Hint) (next : Option Hint) :
    ∃ repeats, (e.matchRepeat h next).state = { e.state with repeats } := by
  unfold matchRepeat
  split
  · exact ⟨e.state.repeats, rfl⟩
  · exact ⟨_, rfl⟩

theorem distance_le {base : Base} {x : Hint} {d : Nat} (hh : h.Reachable base)
    (hx : x.Reachable base) (hrep : h.shift.isRepresentable d = true)
    (hrepx : x.shift.isRepresentable d = true) {field : Field} {n : Int}
    (hn : h.distance? x d field = some n) : n ≤ greatestWord := by
  cases field with
  | ppem =>
    have hn : (x.ppem : Int) - h.ppem = n := Option.some.inj hn
    have hle := hx.ppem_le
    omega
  | point =>
    obtain ⟨a, -, hn⟩ := Option.bind_eq_some_iff.mp hn
    obtain ⟨b, hb, rfl⟩ := Option.map_eq_some_iff.mp hn
    have hle := hx.point_le b hb
    omega
  | shift =>
    have hn : Grain.ofShift x.shift d - Grain.ofShift h.shift d = n := Option.some.inj hn
    have hgrain := Grain.ofShift_bounds (Hint.isUsable_of_isValid hh.valid) hrep
    have hgrainx := Grain.ofShift_bounds (Hint.isUsable_of_isValid hx.valid) hrepx
    simp only [greatestWord]
    omega

theorem leads_matchRepeat {base : Base} (hh : h.Reachable base)
    (hnext : ∀ x ∈ next, x.Reachable base)
    (hrep : h.shift.isRepresentable e.state.deltaShift = true)
    (hreps : ∀ x ∈ next, x.shift.isRepresentable e.state.deltaShift = true) :
    e.Leads (e.matchRepeat h next) := by
  unfold matchRepeat
  split
  · exact .refl e
  · rename_i repeats hrepeats
    obtain ⟨x, hx, hinferred⟩ := Option.bind_eq_some_iff.mp hrepeats
    obtain ⟨hpos, ⟨field, -, hdistance⟩, -⟩ := inferredRepeat?_eq_some hinferred
    have hle := distance_le hh (hnext x hx) hrep (hreps x hx) hdistance
    exact leads_emit (Machine.leads_repeatSteps hpos (by omega))

/-! ## Hints -/

/-- The encoder in front of the delta instruction of a hint. -/
def approach (e : Encoder) (h : Hint) (next : Option Hint) : Encoder :=
  ((((e.resetFor h).matchPpem h.ppem).takeShift h.shift).matchPoint h.point).matchRepeat h next

theorem deltaShift_matchPpem (e : Encoder) (h : Hint) :
    ((e.resetFor h).matchPpem h.ppem).state.deltaShift = e.state.deltaShift := by
  change (e.resetFor h).state.deltaShift = _
  rw [state_resetFor]
  rfl

/-- The encoder once it stands at a hint. -/
def reach (e : Encoder) (h : Hint) : Encoder :=
  (((e.resetFor h).matchPpem h.ppem).takeShift h.shift).matchPoint h.point

theorem approach_eq (e : Encoder) (h : Hint) (next : Option Hint) :
    e.approach h next = (e.reach h).matchRepeat h next := rfl

theorem state_reach (hrep : h.shift.isRepresentable e.state.deltaShift = true) : ∃ point,
    (e.reach h).state = { e.state with ppem := h.ppem, shift := h.shift, point } ∧
      ∀ p ∈ h.point, point = p := by
  have hreset : ((e.resetFor h).matchPpem h.ppem).state =
      { (e.resetFor h).state with ppem := h.ppem } := rfl
  rw [← deltaShift_matchPpem e h] at hrep
  rw [reach, state_matchPoint, state_takeShift hrep, hreset, state_resetFor]
  refine ⟨_, rfl, ?_⟩
  intro p hp
  have hpoint : h.point = some p := hp
  rw [hpoint]
  rfl

theorem state_approach (hrep : h.shift.isRepresentable e.state.deltaShift = true)
    (next : Option Hint) : ∃ point repeats,
      (e.approach h next).state =
        { e.state with ppem := h.ppem, shift := h.shift, point, repeats } ∧
      ∀ p ∈ h.point, point = p := by
  obtain ⟨point, hstate, hpoint⟩ := state_reach hrep
  obtain ⟨repeats, hrepeats⟩ := state_matchRepeat (e.reach h) h next
  rw [hstate] at hrepeats
  exact ⟨point, repeats, hrepeats, hpoint⟩

theorem frame_approach (hrep : h.shift.isRepresentable e.state.deltaShift = true)
    (next : Option Hint) : (e.approach h next).state.frame = e.state.frame := by
  obtain ⟨point, repeats, hstate, _⟩ := state_approach hrep next
  rw [hstate]
  rfl

/-- In front of the delta instruction the machine emits the hint. -/
theorem hint_approach (hrep : h.shift.isRepresentable e.state.deltaShift = true)
    (hv : h.isValid = true) : (e.approach h next).state.hint h.kind = h := by
  obtain ⟨point, repeats, hstate, hpoint⟩ := state_approach hrep next
  rw [hstate]
  rcases h with ⟨ppem, shift, hp, kind⟩
  have hu := Hint.isUsable_of_isValid hv
  have hfold : shift.foldZero = shift := by
    cases shift <;> first | rfl | contradiction
  have hfits : kind.takesPoint = hp.isSome := by
    unfold Hint.isValid DeltaKind.fits at hv
    exact eq_of_beq (Bool.and_eq_true_iff.mp hv).2
  cases hp with
  | none => simp_all [Machine.hint, Hint.of]
  | some p =>
    have := hpoint p rfl
    simp_all [Machine.hint, Hint.of]

theorem addHint_eq (hrep : h.shift.isRepresentable e.state.deltaShift = true) :
    e.addHint h next =
      .ok ((e.approach h next).emit [.delta h.kind] (e.approach h next).state.advance) := by
  rw [← deltaShift_matchPpem e h] at hrep
  unfold addHint
  rw [matchShift_eq hrep]
  rfl

theorem leads_approach {base : Base} (hbase : e.state.base = base) (hh : h.Reachable base)
    (hnext : ∀ x ∈ next, x.Reachable base)
    (hrep : h.shift.isRepresentable e.state.deltaShift = true)
    (hreps : ∀ x ∈ next, x.shift.isRepresentable e.state.deltaShift = true) :
    e.Leads (e.approach h next) := by
  rw [← deltaShift_matchPpem e h] at hrep hreps
  have hppem : (e.resetFor h).state.ppem ≤ h.ppem := resetFor_ppem_le (hbase ▸ hh.base_ppem)
  have hreached := (leads_resetFor e h).trans
    (leads_matchPpem hppem (by have := hh.ppem_le; omega))
  have hturned := hreached.trans
    (leads_takeShift (Hint.isUsable_of_isValid hh.valid) hrep)
  have hpoint : ∀ p ∈ h.point,
      (((e.resetFor h).matchPpem h.ppem).takeShift h.shift).state.point ≤ p := by
    intro p hp
    rw [state_takeShift hrep]
    exact resetFor_point_le (hbase ▸ hh.base_point) hp
  have hpointed := hturned.trans (leads_matchPoint hpoint hh.point_le)
  have hshift : ((((e.resetFor h).matchPpem h.ppem).takeShift h.shift).matchPoint
      h.point).state.deltaShift = ((e.resetFor h).matchPpem h.ppem).state.deltaShift := by
    rw [state_matchPoint, state_takeShift hrep]
  exact hpointed.trans
    (leads_matchRepeat hh hnext (hshift ▸ hrep) fun x hx => hshift ▸ hreps x hx)

/-! ## Markers -/

theorem addMarker_hint (e : Encoder) (h : Hint) (following : Option Marker) :
    e.addMarker (.hint h) following = e.addHint h (following.bind Marker.hint?) := by
  rcases following with _ | m
  · rfl
  · cases m <;> rfl

variable {home : Nat} {m : Marker} {rest : List Marker}

/-- A marker that the settings admit is processed, and only the settings follow it. -/
theorem addMarker_isOk (hvalid : e.state.settings.Valid home)
    (hadmits : e.state.settings.Admits home rest m) :
    ∃ f, e.addMarker m rest.head? = .ok f ∧
      f.state.frame = (e.state.axis, e.state.base, e.state.settings.after m) := by
  cases m with
  | mask mask => exact ⟨_, rfl, e.frame_setMask mask⟩
  | deltaShift d => exact ⟨_, rfl, rfl⟩
  | deltaBase b =>
    obtain ⟨f, hf, hstate, _⟩ := setDeltaBase_eq_ok (spacing_mod hvalid.spacing hadmits.1)
    refine ⟨f, hf, ?_⟩
    rw [hstate]
    rfl
  | hint h =>
    refine ⟨_, (e.addMarker_hint h _).trans (addHint_eq hadmits.representable), ?_⟩
    exact frame_approach hadmits.representable _

/-- A change between hints leads the machine on. -/
theorem leads_addMarker (hvalid : e.state.settings.Valid home) (hhome : home ≤ greatestWord)
    (hadmits : e.state.settings.Admits home rest m)
    (hrest : ∀ x ∈ Plan.hints rest, x.ppem ≤ greatestWord) (hm : m.hint? = none)
    (hf : e.addMarker m rest.head? = .ok f) : e.Leads f := by
  cases m with
  | hint h => contradiction
  | mask mask =>
    cases hf
    exact e.leads_setMask mask
  | deltaShift d =>
    cases hf
    exact leads_setDeltaShift hadmits
  | deltaBase b =>
    obtain ⟨g, hg, _, hleads⟩ := setDeltaBase_eq_ok (spacing_mod hvalid.spacing hadmits.1)
    obtain rfl : g = f := Except.ok.inj (hg.symm.trans hf)
    apply hleads
    rcases hadmits.2 with rfl | ⟨x, hx, hle⟩
    · exact hhome
    · exact hle.trans (hrest x hx)

/-- What processing a marker amounts to: the machine is led on, and a hint is emitted where it
has been led to. -/
inductive Processes (e : Encoder) : Marker → Encoder → Prop
  | change {m : Marker} {f : Encoder} : m.hint? = none → e.Leads f → Processes e m f
  | hint {h : Hint} {g : Encoder} : e.Leads g → g.state.frame = e.state.frame →
      g.state.hint h.kind = h →
      Processes e (.hint h) (g.emit [.delta h.kind] g.state.advance)

theorem addMarker_processes {base : Base} (hbase : e.state.base = base)
    (hvalid : e.state.settings.Valid home) (hhome : home ≤ greatestWord)
    (hsound : Plan.Sound home e.state.settings (m :: rest))
    (hreach : ∀ x ∈ Plan.hints (m :: rest), x.Reachable base)
    (hf : e.addMarker m rest.head? = .ok f) : e.Processes m f := by
  cases hm : m.hint? with
  | none =>
    have hle : ∀ x ∈ Plan.hints rest, x.ppem ≤ greatestWord := by
      intro x hx
      have hmem : x ∈ Plan.hints (m :: rest) := by simpa [Plan.hints, hm] using hx
      have hppem := (hreach x hmem).ppem_le
      omega
    exact .change hm (leads_addMarker hvalid hhome hsound.1 hle hm hf)
  | some h =>
    obtain rfl : m = .hint h := by
      cases m with
      | hint => exact congrArg Marker.hint (Option.some.inj hm)
      | _ => contradiction
    have hrep := hsound.1.representable
    rw [addMarker_hint, addHint_eq hrep] at hf
    obtain rfl := Except.ok.inj hf
    have hh : h.Reachable base := hreach h List.mem_cons_self
    have hnext : ∀ x ∈ rest.head?.bind Marker.hint?, x.Reachable base ∧
        x.shift.isRepresentable e.state.deltaShift = true := by
      intro x hx
      cases rest with
      | nil => contradiction
      | cons n rest =>
        obtain rfl : n = .hint x := by
          cases n with
          | hint => exact congrArg Marker.hint (Option.some.inj hx)
          | _ => contradiction
        exact ⟨hreach x (List.mem_cons_of_mem h List.mem_cons_self),
          hsound.2.1.representable⟩
    exact .hint (leads_approach hbase hh (fun x hx => (hnext x hx).1) hrep
      fun x hx => (hnext x hx).2) (frame_approach hrep _) (hint_approach hrep hh.valid)

end Encoder

end GlyphHints
