import GlyphHints.Packing
import GlyphHints.Spark.Reading

/-!
# What a Spark program means

A program is analyzed by running down its instructions under the settings in effect and
recording what its deltas resolve to; RTGAH closes one phase and opens the next, and leaves
the settings alone. Its text shows each instruction with the ppems and shifts it means.
-/
namespace GlyphHints.Spark

/-- The hints of a delta, in the order in which they are written. -/
def Delta.hints (d : Delta) (c : Context) : List Hint :=
  d.entries.flatMap fun e => e.2.map fun spec =>
    let (ppem, shift) := spec.resolve d.band c.deltaBase c.deltaShift
    .of ppem shift e.1 d.kind

/-- The settings and phases reached so far. -/
structure Analysis where
  context : Context
  phases : GlyphPhases

namespace Analysis

def start : Analysis := ⟨.start, ⟨none, .empty⟩⟩

def step (a : Analysis) (i : Instruction) : Except Error Analysis :=
  let context := a.context.after i
  match i with
  | .rtgah => .ok ⟨context, ⟨some a.phases.post, .empty⟩⟩
  | .delta d => do
    let post ← a.phases.post.insertAll ((d.hints a.context).map (a.context.axis, ·))
    return ⟨context, { a.phases with post }⟩
  | _ => .ok { a with context }

end Analysis

/-- A shift as a fraction in lowest terms, or as a decimal if no delta shift makes it whole. -/
def fractionText (shift : Shift) : String :=
  match shift.coarsest with
  | .ok 0 => toString (shift.steps 0)
  | .ok d => toString (shift.steps d) ++ "/" ++ toString (scale d)
  | .error _ => shift.text .bare

/-- The order in which the specs of an entry are shown. -/
def specOrder : Nat × Shift → Nat × Shift → Ordering :=
  compareLex (compareOn (·.1)) (compareOn (·.2))

namespace Delta

/-- A point with what its specs mean. -/
def entryText (d : Delta) (c : Context) (e : Option Nat × List Spec) : String :=
  let resolved := sortBy specOrder
    (e.2.map fun spec => spec.resolve d.band c.deltaBase c.deltaShift)
  let specs := String.intercalate ", "
    (resolved.map fun (ppem, shift) => fractionText shift ++ "@" ++ toString ppem)
  match e.1 with
  | some point => "Point " ++ toString point ++ " " ++ specs
  | none => specs

def text (d : Delta) (c : Context) : String :=
  d.kind.name ++ ": " ++ String.intercalate "; " (d.entries.map (d.entryText c))

end Delta

def Instruction.text (c : Context) : Instruction → String
  | .setAxis axis => "SVTCA[" ++ axis.name ++ "]"
  | .setDeltaBase deltaBase => "SDB[" ++ toString deltaBase ++ "]"
  | .setDeltaShift deltaShift => "SDS[" ++ toString deltaShift ++ "]"
  | .rtgah => "RTGAH"
  | .delta d => d.text c

/-- The settings under which each instruction stands. -/
def contexts (c : Context) : List Instruction → List Context
  | [] => []
  | i :: rest => c :: contexts (c.after i) rest

namespace Program

def analyze (p : Program) : Except Error GlyphPhases :=
  (p.instructions.foldlM Analysis.step Analysis.start).map (·.phases)

def text (p : Program) : String :=
  String.join (List.zipWith (fun c (i : Instruction) => i.text c ++ "\n")
    (contexts .start p.instructions) p.instructions)

/-- Compresses a program. A gray program stays gray whatever the options say. -/
def compress (p : Program) (options : Options) : Except Error CompressedHints := do
  let phases ← p.analyze
  CompressedHints.ofPhases phases { options with gray := options.gray || p.gray }

end Program

end GlyphHints.Spark
