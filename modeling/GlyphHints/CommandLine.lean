import GlyphHints.Command

/-!
# Command lines

A command line is a verb followed by arguments in any order: one input path, flags, and for
some verbs an output path. Arguments are taken from left to right, and a path that has been
met is looked at only when a later argument, or the end, shows that it is complete; that
settles which of two faults is reported. After `--` every argument is a path.
-/
namespace GlyphHints

/-- Why a command line does not parse, or asks for help instead of work. -/
inductive UsageFault where
  | nothingGiven
  | helpRequested
  | unknownVerb
  | unknownArgument
  | missingInput
  | missingValue
  | unneededValue
  | repeatedArgument
deriving DecidableEq, Repr

def UsageFault.message : UsageFault → String
  | nothingGiven => "a command is required: compress, disasm, analyze or stats"
  | helpRequested => "commands: compress, disasm, analyze, stats"
  | unknownVerb => "unknown command"
  | unknownArgument => "unknown argument"
  | missingInput => "an input path is required"
  | missingValue => "a value is required and must not be empty"
  | unneededValue => "a flag takes no value"
  | repeatedArgument => "an argument is given more than once"

inductive Verb where
  | compress
  | disasm
  | analyze
  | stats
deriving DecidableEq, Repr

namespace Verb

def all : List Verb := [compress, disasm, analyze, stats]

def name : Verb → String
  | compress => "compress"
  | disasm => "disasm"
  | analyze => "analyze"
  | stats => "stats"

def ofName? (name : String) : Option Verb := all.find? fun verb => verb.name == name

/-- The flags a verb knows, apart from the one for help. -/
def flags : Verb → List String
  | compress => ["raw", "verify"]
  | disasm => ["raw"]
  | analyze => []
  | stats => ["fused", "raw"]

def takesOutput : Verb → Bool
  | compress => true
  | _ => false

end Verb

inductive Argument where
  | separator
  /-- Two dashes and a name, with a value if there is an equals sign. -/
  | long (name : String) (value : Option String)
  /-- One dash, a letter and whatever is attached to it. -/
  | short (letter : Char) (rest : List Char)
  | plain

/-- The form of an argument before the separator. A single dash is a path. -/
def Argument.classify (argument : String) : Argument :=
  match argument.toList with
  | ['-', '-'] => .separator
  | '-' :: '-' :: rest =>
    match rest.span (· != '=') with
    | (name, []) => .long (String.ofList name) none
    | (name, _ :: value) => .long (String.ofList name) (some (String.ofList value))
  | '-' :: letter :: rest => .short letter rest
  | _ => .plain

/-- A path that has been announced or met but not yet looked at. -/
inductive PendingPath where
  | input (path : String)
  /-- The output path, none as long as only its option has been met. -/
  | output (path : Option String)
deriving DecidableEq

/-- The arguments of a verb taken so far. -/
structure ArgumentScan where
  input : Option String
  output : Option String
  flags : List String
  pending : Option PendingPath
deriving DecidableEq

namespace ArgumentScan

def start : ArgumentScan := ⟨none, none, [], none⟩

def takeOutput (s : ArgumentScan) (path : String) : Except UsageFault ArgumentScan :=
  if s.output.isSome then .error .repeatedArgument
  else if path.isEmpty then .error .missingValue
  else .ok { s with output := some path }

/-- Looks at the path that is waiting, if there is one. -/
def settle (s : ArgumentScan) : Except UsageFault ArgumentScan :=
  let rest := { s with pending := none }
  match s.pending with
  | none => .ok s
  | some (.input path) =>
    if path.isEmpty then .error .missingValue else .ok { rest with input := some path }
  | some (.output none) => .error .missingValue
  | some (.output (some path)) => rest.takeOutput path

def hasInput (s : ArgumentScan) : Bool :=
  s.input.isSome || match s.pending with
    | some (.input _) => true
    | _ => false

def addPath (s : ArgumentScan) (path : String) : Except UsageFault ArgumentScan := do
  if s.hasInput then throw .unknownArgument
  let s ← s.settle
  return { s with pending := some (.input path) }

def addFlag (s : ArgumentScan) (flag : String) : Except UsageFault ArgumentScan := do
  let s ← s.settle
  if s.flags.contains flag then throw .repeatedArgument
  return { s with flags := flag :: s.flags }

/-- Meets the option for the output path, with its value if that is attached. -/
def addOutput (s : ArgumentScan) (path : Option String) : Except UsageFault ArgumentScan := do
  let s ← s.settle
  match path with
  | some path => s.takeOutput path
  | none => return { s with pending := some (.output none) }

def askHelp (s : ArgumentScan) : Except UsageFault ArgumentScan := do
  let _ ← s.settle
  throw .helpRequested

def addLong (verb : Verb) (s : ArgumentScan) (name : String) (value : Option String) :
    Except UsageFault ArgumentScan :=
  if verb.takesOutput && name == "output" then s.addOutput value
  else if name == "help" || verb.flags.contains name then
    if value.isSome then .error .unneededValue
    else if name == "help" then s.askHelp
    else s.addFlag name
  else .error .unknownArgument

/-- The value attached to a letter; an equals sign in front of it does not belong to it. -/
def attachedValue : List Char → Option String
  | [] => none
  | '=' :: value => some (String.ofList value)
  | value => some (String.ofList value)

def addShort (verb : Verb) (s : ArgumentScan) (letter : Char) (rest : List Char) :
    Except UsageFault ArgumentScan :=
  if letter = 'h' then s.askHelp
  else if verb.takesOutput && letter == 'o' then s.addOutput (attachedValue rest)
  else .error .unknownArgument

/-- Takes the arguments from the first one on. -/
def scan (verb : Verb) (s : ArgumentScan) : List String → Except UsageFault ArgumentScan
  | [] => s.settle
  | argument :: rest =>
    match Argument.classify argument with
    | .separator => do
      let s ← rest.foldlM addPath s
      s.settle
    | .long name value => do
      let s ← s.addLong verb name value
      s.scan verb rest
    | .short letter attached => do
      let s ← s.addShort verb letter attached
      s.scan verb rest
    | .plain =>
      if s.pending = some (.output none) then
        { s with pending := some (.output (some argument)) }.scan verb rest
      else do
        let s ← s.addPath argument
        s.scan verb rest

end ArgumentScan

namespace Verb

def parse (verb : Verb) (arguments : List String) : Except UsageFault Command := do
  let s ← ArgumentScan.start.scan verb arguments
  let format := if s.flags.contains "raw" then Format.raw else .huffman
  match s.input with
  | none => throw .missingInput
  | some input =>
    return match verb with
    | compress => .compress input s.output format (s.flags.contains "verify")
    | disasm => .disasm input format
    | analyze => .analyze input
    | stats => .stats input (s.flags.contains "fused") format

end Verb

namespace Command

/-- What follows the word `help` in place of a verb: at most one verb. -/
def parseHelp : List String → UsageFault
  | [] => .helpRequested
  | [topic] => if topic = "help" ∨ (Verb.ofName? topic).isSome then .helpRequested else .unknownVerb
  | _ => .unknownVerb

def parse : List String → Except UsageFault Command
  | [] => .error .nothingGiven
  | word :: rest =>
    match Verb.ofName? word with
    | some verb => verb.parse rest
    | none =>
      if word = "help" then .error (parseHelp rest)
      else match Argument.classify word with
        | .plain => .error .unknownVerb
        | .long name value =>
          .error (if name ≠ "help" then .unknownArgument
            else if value.isSome then .unneededValue
            else .helpRequested)
        | .short letter _ => .error (if letter = 'h' then .helpRequested else .unknownArgument)
        | .separator =>
          match rest with
          | [] => .error .nothingGiven
          | word :: _ =>
            .error (if word = "help" ∨ (Verb.ofName? word).isSome then .unknownArgument
              else .unknownVerb)

end Command

end GlyphHints
