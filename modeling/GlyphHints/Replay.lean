import GlyphHints.Machine
import GlyphHints.PhaseMap

/-!
# Replaying a stream

A body is decoded by stepping the machine through its instructions and recording the hint
of every delta instruction in the phase map of the current phase. RTGAH closes that phase
and opens another.
-/
namespace GlyphHints

/-- The hints of a glyph: those before RTGAH, if it has one, and those after it. -/
structure GlyphPhases where
  pre : Option PhaseMap
  post : PhaseMap
deriving DecidableEq

/-- A machine with what it has recorded. -/
structure Replay where
  machine : Machine
  phases : GlyphPhases
deriving DecidableEq

namespace Replay

def start (base : Base) : Replay := ⟨.start base, ⟨none, .empty⟩⟩

def step (r : Replay) (i : Instruction) : Except Error Replay :=
  match i with
  | .delta kind => do
    let post ← r.phases.post.insert r.machine.axis (r.machine.hint kind)
    let machine ← r.machine.step i
    return ⟨machine, { r.phases with post }⟩
  | .rtgah => do
    let machine ← r.machine.step i
    return ⟨machine, ⟨some r.phases.post, .empty⟩⟩
  | _ => do
    let machine ← r.machine.step i
    return ⟨machine, r.phases⟩

def run (r : Replay) (instructions : List Instruction) : Except Error Replay :=
  instructions.foldlM step r

/-- The replay after each instruction that can be obeyed, latest first in `past`, and the
first error. -/
def historyAfter (past : List (Instruction × Replay)) (r : Replay) :
    List Instruction → List (Instruction × Replay) × Option Error
  | [] => (past.reverse, none)
  | i :: rest =>
    match r.step i with
    | .error e => (past.reverse, some e)
    | .ok r => historyAfter ((i, r) :: past) r rest

end Replay

namespace NybbleStream

/-- Replays a stream. An instruction that cannot be obeyed is reported before a later one
that cannot be read. -/
def decode (s : NybbleStream) : Except Error GlyphPhases := do
  let (prolog, _) ← s.prolog
  let walk ← s.walk
  let r ← (Replay.start prolog.base).run walk.instructions
  match walk.fault with
  | some e => throw e
  | none => return r.phases

/-- What has been recorded after each instruction, and the error that ends the replay early,
if one does. -/
def history (s : NybbleStream) : Except Error (List (Instruction × Replay) × Option Error) := do
  let (prolog, _) ← s.prolog
  let walk ← s.walk
  let (past, stopped) := Replay.historyAfter [] (.start prolog.base) walk.instructions
  return (past, stopped <|> walk.fault)

end NybbleStream

end GlyphHints
