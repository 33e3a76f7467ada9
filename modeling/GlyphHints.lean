import GlyphHints.Main
import GlyphHints.Shift.Bits
import GlyphHints.Proofs.Plan
import GlyphHints.Proofs.PhaseMap
import GlyphHints.Proofs.Reading
import GlyphHints.Proofs.Runs
import GlyphHints.Proofs.EncoderSteps
import GlyphHints.Proofs.Progress
import GlyphHints.Proofs.RunInvariants
import GlyphHints.Proofs.Tracking
import GlyphHints.Proofs.BaseValues
import GlyphHints.Proofs.Compression
import GlyphHints.Proofs.RoundTrip
import GlyphHints.Proofs.Encodable
import GlyphHints.Proofs.LockStep
import GlyphHints.Proofs.Symbols
import GlyphHints.Proofs.CodeTable
import GlyphHints.Proofs.Packing
import GlyphHints.Proofs.Unpacking
import GlyphHints.Proofs.RawPacking
import GlyphHints.Proofs.Vocabulary
import GlyphHints.Proofs.Spark
import GlyphHints.Proofs.GlyphTask
import GlyphHints.Proofs.SparkGrammar
import GlyphHints.Proofs.Advancing
import GlyphHints.Proofs.Faults
import GlyphHints.Proofs.Decoding
import GlyphHints.Proofs.CodedStreams
import GlyphHints.Proofs.RawUnpacking
import GlyphHints.Proofs.SparkPhases
import GlyphHints.Proofs.Gathering
import GlyphHints.Proofs.PlanSections
import GlyphHints.Proofs.Hex
import GlyphHints.Proofs.Commands
import GlyphHints.Proofs.PlanSettings
import GlyphHints.Proofs.Repeats
import GlyphHints.Proofs.Walkers
import GlyphHints.Proofs.CutStreams
import GlyphHints.Proofs.PackedLength
import GlyphHints.Proofs.GranularitySearch
import GlyphHints.Proofs.Counting
import GlyphHints.Proofs.PrologForms
import GlyphHints.Proofs.GrainGrid
import GlyphHints.Proofs.PhaseSets
import GlyphHints.Proofs.Listings
