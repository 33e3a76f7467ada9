import GlyphHints.Plan
import GlyphHints.Replay

/-!
# Encoding phase maps

The encoder walks the plan of each axis of each phase. In front of a hint it emits the
instructions that bring the machine to the hint's ppem, shift and point, and a repeat that
lets auto-increment reach the next hint of the same run. It keeps the state the machine will
have reached, setting each field to the value aimed at rather than obeying what it emits.
-/
namespace GlyphHints

structure Encoder where
  state : Machine
  emitted : Array Instruction

namespace Encoder

def start (base : Base) : Encoder := ⟨.start base, #[]⟩

/-- Emits instructions and goes over to the state they lead to. -/
def emit (e : Encoder) (instructions : List Instruction) (state : Machine) : Encoder :=
  ⟨state, e.emitted ++ instructions⟩

/-- A number of equal instructions with a given operand of opcode 6. -/
def repeated (times : Nat) (m : Misc) : List Instruction := List.replicate times (.misc m)

/-- The instructions that add to the ppem, in steps of at most sixteen. -/
def ppemSteps (distance : Nat) : List Instruction :=
  List.replicate (distance / 16) (.addPpem 15) ++
    (if distance % 16 = 0 then [] else [.addPpem ⟨distance % 16 - 1, by omega⟩])

/-- The instructions that add to the point, the largest steps first. -/
def pointSteps (distance : Nat) : List Instruction :=
  repeated (distance / 64) .addPoint64 ++ repeated (distance % 64 / 32) .addPoint32 ++
    List.replicate (distance % 32 / 16) (.addPoint 15) ++
    (if distance % 16 = 0 then [] else [.addPoint ⟨distance % 16 - 1, by omega⟩])

/-- The instructions that set the repeat: what exceeds a nybble is added to it. -/
def repeatSteps (repeats : Nat) : List Instruction :=
  let more := (repeats - 1) / 16
  .setRepeat ⟨(repeats - 1) % 16, by omega⟩ :: repeated (more / 4) .addRepeat64 ++
    repeated (more % 4 / 2) .addRepeat32 ++ repeated (more % 2) .addRepeat16

def deltaShiftSteps (first last : Nat) : List Instruction :=
  repeated (last - first) .incrementDeltaShift ++ repeated (first - last) .decrementDeltaShift

def setDeltaShift (e : Encoder) (deltaShift : Nat) : Encoder :=
  e.emit (deltaShiftSteps e.state.deltaShift deltaShift) { e.state with deltaShift }

def setDeltaBase (e : Encoder) (deltaBase : Nat) : Except Error Encoder := do
  let steps ← Plan.baseSteps e.state.deltaBase deltaBase
  let m := if deltaBase < e.state.deltaBase then Misc.decrementDeltaBase else .incrementDeltaBase
  return e.emit (repeated steps m) { e.state with deltaBase }

/-- Changes the auto-increment mask, if it is another one. -/
def setMask (e : Encoder) (mask : Mask) : Encoder :=
  if e.state.autoIncrement = mask then e
  else e.emit [.setAutoIncrement mask] { e.state with autoIncrement := mask }

/-- Resets ppem and point where they are beyond the hint. -/
def resetFor (e : Encoder) (h : Hint) : Encoder :=
  let mask : Mask := ⟨h.ppem < e.state.ppem, h.point.any (· < e.state.point), false⟩
  if mask.isEmpty then e else e.emit [.reset mask] (e.state.reset mask)

def matchPpem (e : Encoder) (ppem : Nat) : Encoder :=
  e.emit (ppemSteps (ppem - e.state.ppem)) { e.state with ppem }

/-- Sets the shift, at a delta shift where a nybble can hold it. -/
def matchShift (e : Encoder) (shift : Shift) : Except Error Encoder :=
  if shift = e.state.shift then .ok e
  else do
    let deltaShift ← shift.fit e.state.deltaShift
    let e := e.setDeltaShift deltaShift
    let grain := Grain.ofSteps (shift.steps deltaShift)
    return e.emit [.setShift (Fin.ofNat 16 grain.toNat)] { e.state with shift }

def matchPoint (e : Encoder) (point : Option Nat) : Encoder :=
  match point with
  | none => e
  | some point => e.emit (pointSteps (point - e.state.point)) { e.state with point }

/-- How far each selected coordinate of the next hint lies from that of the present one. The
point counts only if both have one. -/
def distances (s : Machine) (h next : Hint) : List Int :=
  let grain (h : Hint) : Int := Grain.ofShift h.shift s.deltaShift
  (if s.autoIncrement.ppem then [(next.ppem : Int) - h.ppem] else []) ++
    (if s.autoIncrement.shift then [grain next - grain h] else []) ++
    (if s.autoIncrement.point then
      match h.point, next.point with
      | some a, some b => [(b : Int) - a]
      | _, _ => []
    else [])

/-- The smallest positive distance to the next hint. -/
def inferredRepeat? (s : Machine) (h next : Hint) : Option Nat :=
  (leastBy compare ((distances s h next).filter (0 < ·))).map Int.toNat

/-- Sets the repeat that lets the machine advance to the next hint. -/
def matchRepeat (e : Encoder) (h : Hint) (next : Option Hint) : Encoder :=
  match next.bind (inferredRepeat? e.state h) with
  | none => e
  | some repeats => e.emit (repeatSteps repeats) { e.state with repeats }

/-- Emits a hint and advances. -/
def addHint (e : Encoder) (h : Hint) (next : Option Hint) : Except Error Encoder := do
  let e ← ((e.resetFor h).matchPpem h.ppem).matchShift h.shift
  let e := (e.matchPoint h.point).matchRepeat h next
  return e.emit [.delta h.kind] e.state.advance

/-- Processes a marker, given the one that follows it. -/
def addMarker (e : Encoder) (marker : Marker) (following : Option Marker) :
    Except Error Encoder :=
  match marker with
  | .mask mask => .ok (e.setMask mask)
  | .deltaShift deltaShift => .ok (e.setDeltaShift deltaShift)
  | .deltaBase deltaBase => e.setDeltaBase deltaBase
  | .hint h =>
    e.addHint h (match following with
      | some (.hint next) => some next
      | _ => none)

def addPlan (e : Encoder) : List Marker → Except Error Encoder
  | [] => .ok e
  | marker :: rest => do
    let e ← e.addMarker marker rest.head?
    addPlan e rest

/-- Switches to an axis, if the machine is on the other one, and back to the base values. -/
def enterAxis (e : Encoder) (axis : Axis) : Encoder :=
  if e.state.axis = axis then ⟨e.state.reset .all, e.emitted⟩
  else e.emit [.misc (.setAxis axis)] ({ e.state with axis }.reset .all)

def addAxis (e : Encoder) (phase : PhaseMap) (axis : Axis) : Except Error Encoder := do
  let e := e.enterAxis axis
  let plan ← Plan.ofHints (phase.flatten axis) e.state.deltaShift e.state.deltaBase
  e.addPlan plan

def addPhase (e : Encoder) (phase : PhaseMap) : Except Error Encoder :=
  phase.axes.foldlM (fun e axis => e.addAxis phase axis) e

/-- Emits the phases of a glyph, RTGAH between them, and the end. -/
def addPhases (e : Encoder) (phases : GlyphPhases) : Except Error Encoder := do
  let e ← match phases.pre with
    | none => pure e
    | some pre => do
      let e ← e.addPhase pre
      pure (e.emit [.rtgah] (e.state.reset .all))
  let e ← e.addPhase phases.post
  return e.emit [.finish] e.state

end Encoder

namespace GlyphPhases

def isEmpty (phases : GlyphPhases) : Bool :=
  phases.pre.all (·.isEmpty) && phases.post.isEmpty

def least? {α : Type} (phases : GlyphPhases) (cmp : α → α → Ordering)
    (value : PhaseMap → Option α) : Option α :=
  leastBy cmp ((phases.pre.toList ++ [phases.post]).filterMap value)

/-- The base values of a glyph: its smallest shift, at the coarsest delta shift that makes it
whole, its smallest ppem and its smallest point. -/
def prolog (phases : GlyphPhases) : Except Error { p : Prolog // p.Fits } :=
  let shift := (phases.least? compare PhaseMap.minShift?).getD (.pixels 0)
  let ppem := (phases.least? compare PhaseMap.minPpem?).getD Prolog.minBasePpem
  let point := (phases.least? compare PhaseMap.minPoint?).getD 0
  match hg : shift.coarsest with
  | .error e => .error e
  | .ok granularity =>
    let grain := Grain.ofSteps (shift.steps granularity)
    if hs : grain < 0 ∨ 15 < grain then .error (.prologOverflow .baseShift shift)
    else if hl : ppem < Prolog.minBasePpem then .error (.basePpemTooLow ppem)
    else if hp : 255 < ppem then .error (.prologOverflow .basePpem (.pixels ppem))
    else if hq : 255 < point then .error (.prologOverflow .basePoint (.pixels point))
    else .ok ⟨⟨granularity, grain.toNat, ppem, point⟩, Shift.coarsest_le hg,
      Int.toNat_le.mpr (by omega), Nat.le_of_not_lt hl, Nat.le_of_not_lt hp,
      Nat.le_of_not_lt hq⟩

/-- Whether decoded phases are the encoded ones. A glyph without hints comes back with an
empty first phase whether it had one or not. -/
def reproducedBy (phases decoded : GlyphPhases) : Bool :=
  let samePre := match phases.pre, decoded.pre with
    | some a, some b => decide (a = b)
    | none, none => true
    | none, some b => b.isEmpty && phases.post.isEmpty
    | some _, none => false
  samePre && decide (decoded.post = phases.post)

def compress (phases : GlyphPhases) : Except Error NybbleStream :=
  if phases.isEmpty then .ok .noHints
  else do
    let ⟨prolog, fits⟩ ← phases.prolog
    let encoder ← (Encoder.start prolog.base).addPhases phases
    return ⟨prolog.nybbles ++ Instruction.writeAll encoder.emitted.toList, fun n hn =>
      (List.mem_append.mp hn).elim (fits.nybbles_lt n) (Instruction.writeAll_lt n)⟩

/-- The stream of a glyph. When asked to verify, the stream is refused unless it decodes to
what it was made from. -/
def encode (phases : GlyphPhases) (verify : Bool) : Except Error NybbleStream := do
  let stream ← phases.compress
  if verify then
    let decoded ← stream.decode
    unless phases.reproducedBy decoded do throw (.violated .roundTrip)
  return stream

end GlyphPhases

end GlyphHints
