import GlyphHints.Ascending
import GlyphHints.NybbleStream

/-!
# Counting opcodes and symbols

A table holds values under distinct keys, in ascending order of the keys, so that equal
tables have equal entries. A tally is a table that counts how often each key has come up. The
symbols of streams are counted in two ways: whole, or split into opcodes and, under each opcode
that carries them, its operands.
-/
namespace GlyphHints

structure Table (κ β : Type) [Ord κ] where
  entries : List (κ × β)
  ascending : Ascending compare (entries.map (·.1))

namespace Table
variable {κ β : Type} [Ord κ]

/-- Changes the value under a key, which is `initial` where the key is missing. -/
def updateEntries (k : κ) (initial : β) (change : β → β) : List (κ × β) → List (κ × β)
  | [] => [(k, change initial)]
  | (b, v) :: l =>
    match compare k b with
    | .lt => (k, change initial) :: (b, v) :: l
    | .eq => (b, change v) :: l
    | .gt => (b, v) :: updateEntries k initial change l

theorem map_fst_updateEntries (k : κ) (initial : β) (change : β → β) (l : List (κ × β)) :
    (updateEntries k initial change l).map (·.1) =
      Ascending.insert compare k (l.map (·.1)) := by
  induction l with
  | nil => rfl
  | cons e l ih =>
    obtain ⟨b, v⟩ := e
    cases h : compare k b <;> simp [updateEntries, Ascending.insert, h, ih]

def empty : Table κ β := ⟨[], Ascending.nil⟩

instance : Inhabited (Table κ β) := ⟨empty⟩

def get? (t : Table κ β) (k : κ) : Option β :=
  (t.entries.find? fun e => compare k e.1 == .eq).map (·.2)

variable [Std.TransOrd κ] [Std.LawfulEqOrd κ]

def update (t : Table κ β) (k : κ) (initial : β) (change : β → β) : Table κ β :=
  ⟨updateEntries k initial change t.entries,
    map_fst_updateEntries k initial change t.entries ▸ Ascending.ascending_insert t.ascending⟩

/-- Combines the values of another table into this one, key by key. -/
def mergeWith (initial : β) (combine : β → β → β) (t other : Table κ β) : Table κ β :=
  other.entries.foldl (fun t e => t.update e.1 initial (combine · e.2)) t

end Table

abbrev Tally (α : Type) [Ord α] : Type := Table α Nat

namespace Tally
variable {α : Type} [Ord α]

def empty : Tally α := Table.empty

def counts (t : Tally α) : List (α × Nat) := t.entries

def total (t : Tally α) : Nat := t.counts.foldl (fun n e => n + e.2) 0

variable [Std.TransOrd α] [Std.LawfulEqOrd α]

def add (t : Tally α) (a : α) (n : Nat) : Tally α := t.update a 0 (· + n)

/-- Counts each element of a list once. -/
def addAll (t : Tally α) (l : List α) : Tally α := l.foldl (fun t a => t.add a 1) t

def merge (t other : Tally α) : Tally α := t.mergeWith 0 (· + ·) other

end Tally

/-- Opcodes, and operands under their opcodes. -/
structure SplitTally where
  opcodes : Tally Nat
  operands : Table Nat (Tally Nat)

namespace SplitTally

def empty : SplitTally := ⟨.empty, .empty⟩

instance : Inhabited SplitTally := ⟨empty⟩

def addSymbol (t : SplitTally) (s : Symbol) : SplitTally where
  opcodes := t.opcodes.add s.opcode 1
  operands := match s.operand? with
    | some operand => t.operands.update s.opcode .empty (·.add operand 1)
    | none => t.operands

def addAll (t : SplitTally) (symbols : List Symbol) : SplitTally := symbols.foldl addSymbol t

def merge (t other : SplitTally) : SplitTally :=
  ⟨t.opcodes.merge other.opcodes, t.operands.mergeWith .empty Tally.merge other.operands⟩

/-- The counts of the operands of one opcode. -/
def operandsOf (t : SplitTally) (opcode : Nat) : List (Nat × Nat) :=
  match t.operands.get? opcode with
  | some operands => operands.counts
  | none => []

/-- Each opcode that carries operands, with their counts. -/
def operandCounts (t : SplitTally) : List (Nat × List (Nat × Nat)) :=
  t.operands.entries.map fun e => (e.1, e.2.counts)

/-- Counts the body of a stream. -/
def accumulate (t : SplitTally) (s : NybbleStream) : Except Error SplitTally :=
  s.symbols.map t.addAll

/-- Opcode counts, each followed by its operand counts. -/
def report (t : SplitTally) : String :=
  String.join (t.opcodes.counts.map fun e =>
    "opcode " ++ upperHex e.1 ++ ": " ++ toString e.2 ++ "\n" ++
      String.join ((t.operandsOf e.1).map fun a =>
        "  operand " ++ upperHex a.1 ++ ": " ++ toString a.2 ++ "\n"))

end SplitTally

abbrev FusedTally : Type := Tally Symbol

namespace FusedTally

/-- Counts the body of a stream. -/
def accumulate (t : FusedTally) (s : NybbleStream) : Except Error FusedTally :=
  s.symbols.map t.addAll

/-- Symbol counts, then their total. -/
def report (t : FusedTally) : String :=
  String.join (t.counts.map fun e => e.1.text ++ ": " ++ toString e.2 ++ "\n") ++
    "total: " ++ toString t.total ++ "\n"

end FusedTally

namespace NybbleStream

def splitTally (s : NybbleStream) : Except Error SplitTally := SplitTally.empty.accumulate s

def fusedTally (s : NybbleStream) : Except Error FusedTally :=
  FusedTally.accumulate Tally.empty s

end NybbleStream

end GlyphHints
