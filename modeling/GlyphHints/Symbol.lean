/-!
# Symbols

The nybbles of a program are packed opcode by opcode. Opcodes 0 to 6 are followed by an
operand and coded together with it; the others are coded alone.
-/
namespace GlyphHints

/-- Whether an opcode is followed by an operand nybble. -/
def hasOperand (opcode : Nat) : Bool := opcode ≤ 6

/-- An opcode alone, or an opcode fused with its operand. -/
inductive Symbol where
  | bare (opcode : Nat)
  | fused (opcode operand : Nat)
deriving DecidableEq, Repr

namespace Symbol

/-- The opcode 15, which ends a program. -/
def finish : Symbol := bare 15

def ofParts (opcode : Nat) : Option Nat → Symbol
  | none => bare opcode
  | some operand => fused opcode operand

def opcode : Symbol → Nat
  | bare opcode => opcode
  | fused opcode _ => opcode

def operand? : Symbol → Option Nat
  | bare _ => none
  | fused _ operand => some operand

def nybbles : Symbol → List Nat
  | bare opcode => [opcode]
  | fused opcode operand => [opcode, operand]

def text : Symbol → String
  | bare opcode => toString opcode
  | fused opcode operand => "(" ++ toString opcode ++ ", " ++ toString operand ++ ")"

/-- Bare symbols come first, then fused ones, each by number. -/
instance : Ord Symbol where
  compare := compareLex (compareOn fun s => s.operand?.isSome)
    (compareLex (compareOn opcode) (compareOn operand?))

instance : Std.TransOrd Symbol :=
  inferInstanceAs (Std.TransCmp (compareLex (compareOn fun s => s.operand?.isSome)
    (compareLex (compareOn opcode) (compareOn operand?))))

theorem ofParts_opcode_operand? (s : Symbol) : ofParts s.opcode s.operand? = s := by
  cases s <;> rfl

instance : Std.LawfulEqOrd Symbol where
  eq_of_compare {a b} h := by
    obtain ⟨_, h⟩ := compareLex_eq_eq.mp h
    obtain ⟨ho, ha⟩ := compareLex_eq_eq.mp h
    have ho : a.opcode = b.opcode := Std.LawfulEqOrd.eq_of_compare ho
    have ha : a.operand? = b.operand? := Std.LawfulEqOrd.eq_of_compare ha
    rw [← ofParts_opcode_operand? a, ho, ha, ofParts_opcode_operand?]

end Symbol

end GlyphHints
