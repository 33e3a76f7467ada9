import GlyphHints.Hex

/-!
# Glyph files

A glyph file has one record per line, a glyph's name and its bytes, with a colon between
them. Blank lines and lines that begin with `#` are skipped, and so are the blanks around
lines and names; a carriage return at the end of a line is one of them. A line is split at
its first colon.
-/
namespace GlyphHints

structure GlyphRecord where
  name : String
  bytes : List UInt8
deriving DecidableEq

/-- Why a line holds no record. -/
inductive LineFault where
  | noColon (line : List Char)
  | noName
  | badBytes (name : String) (fault : Hex.Fault)
deriving DecidableEq

def LineFault.message : LineFault → String
  | noColon line => "expected `<glyph-name>: <hex>`, got " ++ Text.quoted line
  | noName => "missing glyph name"
  | badBytes name fault => "glyph " ++ name ++ ": " ++ fault.message

/-- The first line of a file that is neither skipped nor a record, counted from 1. -/
structure FileFault where
  line : Nat
  fault : LineFault
deriving DecidableEq

def FileFault.message (f : FileFault) : String :=
  "line " ++ toString f.line ++ ": " ++ f.fault.message

namespace GlyphRecord

/-- The record of a line without blanks at its ends. -/
def ofLine (line : List Char) : Except LineFault GlyphRecord :=
  match line.span (· != ':') with
  | (_, []) => .error (.noColon line)
  | (name, _ :: bytes) =>
    let name := Text.trim name
    if name.isEmpty then .error .noName
    else match Hex.decode bytes with
      | .ok bytes => .ok ⟨String.ofList name, bytes⟩
      | .error fault => .error (.badBytes (String.ofList name) fault)

/-- Whether a line without blanks at its ends is skipped. -/
def isSkipped (line : List Char) : Bool := line.isEmpty || line.head? == some '#'

/-- The record of a numbered line, if it is not skipped. -/
def ofNumberedLine (line : List Char) (number : Nat) : Except FileFault (Option GlyphRecord) :=
  let line := Text.trim line
  if isSkipped line then .ok none
  else match ofLine line with
    | .ok record => .ok (some record)
    | .error fault => .error ⟨number, fault⟩

def readAll (text : String) : Except FileFault (List GlyphRecord) := do
  let found ← ((Text.lines text.toList).zipIdx 1).mapM fun (line, number) =>
    ofNumberedLine line number
  return found.filterMap id

def line (record : GlyphRecord) : String := record.name ++ ": " ++ Hex.encode record.bytes

def writeAll (records : List GlyphRecord) : String :=
  String.join (records.map (·.line ++ "\n"))

end GlyphRecord

end GlyphHints
