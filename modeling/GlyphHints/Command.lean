import GlyphHints.GlyphTask

/-!
# Commands

A command reads one glyph file and prints, saves and logs what it makes of it. Its run is a
function from the contents of the file to an `Outcome`; nothing is read or written here.

A task is tried on every item of a batch. Outputs and failures keep the order of the items;
a failure is logged and counted but stops nothing.
-/
namespace GlyphHints

/-! ## Batches -/

inductive LogRecord where
  | warning (message : String)
  | info (message : String)
deriving DecidableEq, Repr

def LogRecord.text : LogRecord → String
  | warning message => "WARN: " ++ message
  | info message => "INFO: " ++ message

/-- What a task came to on the items of a batch. -/
structure Batch (ε α : Type) where
  failures : List ε
  outputs : List α

namespace Batch
variable {ε α ι : Type}

/-- Tries a task on every item. -/
def run (task : ι → Except ε α) (items : List ι) : Batch ε α :=
  let results := items.map task
  { failures := results.filterMap fun
      | .error e => some e
      | .ok _ => none
    outputs := results.filterMap fun
      | .error _ => none
      | .ok a => some a }

def succeeded (b : Batch ε α) : Nat := b.outputs.length

def failed (b : Batch ε α) : Nat := b.failures.length

def total (b : Batch ε α) : Nat := b.succeeded + b.failed

def countsText (b : Batch ε α) : String :=
  toString b.succeeded ++ " succeeded, " ++ toString b.failed ++ " failed"

/-- A warning for each failure, then the counts under a label. -/
def log (label : String) (message : ε → String) (b : Batch ε α) : List LogRecord :=
  b.failures.map (.warning ∘ message) ++ [.info (label ++ ": " ++ b.countsText)]

def failureMessage (label : String) (b : Batch ε α) : String :=
  label ++ " failed: " ++ b.countsText

/-- The outputs, or why they do not count: an item failed. -/
def complete (label : String) (b : Batch ε α) : Except String (List α) :=
  if b.failed = 0 then .ok b.outputs else .error (b.failureMessage label)

end Batch

/-! ## Runs -/

inductive Command where
  /-- Compresses Spark programs and prints the packed records, or saves them. -/
  | compress (input : String) (output : Option String) (format : Format) (verify : Bool)
  /-- Prints the listings of packed hints. -/
  | disasm (input : String) (format : Format)
  /-- Prints Spark programs and their phase maps. -/
  | analyze (input : String)
  /-- Prints the counts over all packed hints. -/
  | stats (input : String) (fused : Bool) (format : Format)
deriving DecidableEq, Repr

def Command.input : Command → String
  | compress input .. => input
  | disasm input _ => input
  | analyze input => input
  | stats input .. => input

inductive ReadFailure where
  | missing
  | notUtf8
  | system (text : String)
deriving DecidableEq, Repr

def ReadFailure.message : ReadFailure → String
  | missing => "No such file or directory (os error 2)"
  | notUtf8 => "stream did not contain valid UTF-8"
  | system text => text

inductive CommandFault where
  | unreadable (path : String) (cause : ReadFailure)
  | malformed (path : String) (fault : FileFault)
  | glyph (fault : GlyphFault)
  | incomplete (message : String)
  | noDirectory (path : String) (cause : String)
  | unwritable (path : String) (cause : String)
deriving DecidableEq

def CommandFault.message : CommandFault → String
  | unreadable path cause => "Failed to read glyph file: " ++ path ++ ": " ++ cause.message
  | malformed path fault => "Malformed glyph file: " ++ path ++ ": " ++ fault.message
  | glyph fault => fault.message
  | incomplete message => message
  | noDirectory path cause => "Failed to create directory: " ++ path ++ ": " ++ cause
  | unwritable path cause => "Failed to write glyph file: " ++ path ++ ": " ++ cause

/-- The directory of a path, if the path names one. -/
def parentPath? (path : String) : Option String :=
  match path.toList.reverse.dropWhile (· != '/') with
  | [] => none
  | ['/'] => some "/"
  | _ :: parent => some (String.ofList parent.reverse)

/-- All that a run leaves behind. -/
structure Outcome where
  /-- What is printed, also by a run that stops halfway. -/
  printed : String
  /-- The path and the contents of the file that is written. -/
  saved : Option (String × String)
  log : List LogRecord
  fault : Option CommandFault
deriving DecidableEq

namespace Outcome

def stopped (fault : CommandFault) : Outcome := ⟨"", none, [], some fault⟩

def print (text : String) : Outcome := ⟨text, none, [], none⟩

end Outcome

/-- Reports on glyphs one after another, up to the first that has none. -/
def reportEach (report : GlyphRecord → Except GlyphFault String) : List GlyphRecord → Outcome
  | [] => .print ""
  | record :: rest =>
    match report record with
    | .error fault => .stopped (.glyph fault)
    | .ok text =>
      let later := reportEach report rest
      { later with printed := text ++ later.printed }

/-- Reports on the outputs of a batch, if all its items have one. -/
def reportAll {α : Type} (label : String) (batch : Batch GlyphFault α)
    (report : List α → String) : Outcome :=
  let log := batch.log label GlyphFault.message
  match batch.complete label with
  | .error message => ⟨"", none, log, some (.incomplete message)⟩
  | .ok outputs => ⟨report outputs, none, log, none⟩

def compressAll (format : Format) (verify : Bool) (records : List GlyphRecord) :
    Batch GlyphFault GlyphRecord :=
  .run (GlyphRecord.compress ⟨false, verify⟩ format) records

/-- Tells the file of the packed records from the records that could be packed. A glyph that
fails is left out. -/
def compressedText (batch : Batch GlyphFault GlyphRecord) : String :=
  GlyphRecord.writeAll batch.outputs

namespace Command

/-- What a command makes of the records of its file. -/
def runOn (records : List GlyphRecord) : Command → Outcome
  | compress _ output format verify =>
    let batch := compressAll format verify records
    let log := batch.log "compress" GlyphFault.message
    match output with
    | none => ⟨compressedText batch, none, log, none⟩
    | some path => ⟨"", some (path, compressedText batch), log, none⟩
  | disasm _ format => reportEach (GlyphRecord.listing format) records
  | analyze _ => reportEach GlyphRecord.analysis records
  | stats _ fused format =>
    if fused then
      reportAll "stats" (.run (GlyphRecord.fusedTally format) records) fun tallies =>
        FusedTally.report (tallies.foldl Tally.merge .empty)
    else
      reportAll "stats" (.run (GlyphRecord.splitTally format) records) fun tallies =>
        (tallies.foldl SplitTally.merge .empty).report

def decodeText (bytes : ByteArray) : Except ReadFailure String :=
  match String.fromUTF8? bytes with
  | some text => .ok text
  | none => .error .notUtf8

/-- The run of a command, given what its file holds. -/
def run (command : Command) (source : Except ReadFailure ByteArray) : Outcome :=
  match source.bind decodeText with
  | .error cause => .stopped (.unreadable command.input cause)
  | .ok text =>
    match GlyphRecord.readAll text with
    | .error fault => .stopped (.malformed command.input fault)
    | .ok records => command.runOn records

end Command

end GlyphHints
