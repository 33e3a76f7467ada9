import GlyphHints.CommandLine

/-!
# The program

Runs the command that the arguments give. Results go to standard output or to a file, the
log and faults to standard error.
-/
namespace GlyphHints

def readSource (path : String) : IO (Except ReadFailure ByteArray) := do
  try
    return .ok (← IO.FS.readBinFile path)
  catch
    | .noFileOrDirectory .. => return .error .missing
    | e => return .error (.system (toString e))

/-- Makes the directories that lead to a path. -/
def makeParent (path : String) : IO (Option CommandFault) := do
  match parentPath? path with
  | none => return none
  | some parent =>
    try
      IO.FS.createDirAll parent
      return none
    catch e => return some (.noDirectory parent (toString e))

def save (path text : String) : IO (Option CommandFault) := do
  if let some fault := (← makeParent path) then return some fault
  try
    IO.FS.writeFile path text
    return none
  catch e => return some (.unwritable path (toString e))

/-- Carries an outcome out; gives the fault that ends the program, if any. -/
def perform (outcome : Outcome) : IO (Option CommandFault) := do
  for record in outcome.log do
    IO.eprintln record.text
  IO.print outcome.printed
  match outcome.saved with
  | some (path, text) => return (← save path text) <|> outcome.fault
  | none => return outcome.fault

end GlyphHints

open GlyphHints

def main (arguments : List String) : IO UInt32 := do
  match Command.parse arguments with
  | .error fault =>
    IO.eprintln fault.message
    return if fault = .helpRequested then 0 else 2
  | .ok command =>
    match ← perform (command.run (← readSource command.input)) with
    | none => return 0
    | some fault =>
      IO.eprintln ("Error: " ++ fault.message)
      return 1
