import GlyphHints.GlyphFile
import GlyphHints.Spark.Analysis
import GlyphHints.Tally

/-!
# What is done with one glyph

Each task takes a record, whose bytes are a Spark program or packed hints, and gives a record
or a report. A fault names the glyph and the step that failed.
-/
namespace GlyphHints

inductive Step where
  | parse
  | analyze
  | compress
  | pack
  | unpack
  | walk
deriving DecidableEq, Repr

def Step.failureText : Step → String
  | parse => "not a Spark hint program"
  | analyze => "cannot analyze hints"
  | compress => "cannot compress hints"
  | pack => "cannot pack stream"
  | unpack => "cannot unpack stream"
  | walk => "malformed stream"

structure GlyphFault where
  glyph : String
  step : Step
  cause : Error
deriving DecidableEq

def GlyphFault.message (f : GlyphFault) : String :=
  f.glyph ++ ": " ++ f.step.failureText ++ ": " ++ f.cause.chainMessage

namespace GlyphRecord

/-- A step of a task on this glyph. -/
def attempt {α : Type} (record : GlyphRecord) (step : Step) (result : Except Error α) :
    Except GlyphFault α :=
  result.mapError (⟨record.name, step, ·⟩)

/-- The record with its Spark program compressed and packed. -/
def compress (options : Options) (format : Format) (record : GlyphRecord) :
    Except GlyphFault GlyphRecord := do
  let program ← record.attempt .parse (Spark.Program.parse record.bytes)
  let hints ← record.attempt .compress (program.compress options)
  let packed ← record.attempt .pack (hints.pack format)
  return ⟨record.name, packed⟩

def unpack (format : Format) (record : GlyphRecord) : Except GlyphFault CompressedHints :=
  record.attempt .unpack (CompressedHints.unpack format record.bytes)

/-- The line that opens a report on this glyph. -/
def heading (record : GlyphRecord) : String := "== " ++ record.name ++ " ==\n"

def listing (format : Format) (record : GlyphRecord) : Except GlyphFault String := do
  let hints ← record.unpack format
  let listing ← record.attempt .walk hints.stream.listing
  return record.heading ++ listing

/-- The Spark program as text and the phase maps it records. -/
def analysis (record : GlyphRecord) : Except GlyphFault String := do
  let program ← record.attempt .parse (Spark.Program.parse record.bytes)
  let phases ← record.attempt .analyze program.analyze
  let pre := match phases.pre with
    | some pre => "pre:\n" ++ pre.text
    | none => "pre: none\n"
  return record.heading ++ program.text ++ pre ++ "post:\n" ++ phases.post.text

/-- Opcode and operand counts of the packed hints. -/
def splitTally (format : Format) (record : GlyphRecord) : Except GlyphFault SplitTally := do
  let hints ← record.unpack format
  record.attempt .walk hints.stream.splitTally

def fusedTally (format : Format) (record : GlyphRecord) : Except GlyphFault FusedTally := do
  let hints ← record.unpack format
  record.attempt .walk hints.stream.fusedTally

end GlyphRecord

end GlyphHints
