import GlyphHints.Proofs.Symbols
import GlyphHints.Proofs.Table
import Mathlib.Algebra.Ring.Nat

/-!
# Tallies of lists of symbols

The tally of a list adds up what stands for each of its elements, so it tells how often each has
come up. The counts of opcodes and operands are the sums and the sections of the counts of whole
symbols.
-/
namespace GlyphHints

theorem foldl_add_sum {α M : Type} [AddMonoid M] (f : α → M) (l : List α) (t : M) :
    l.foldl (fun t a => t + f a) t = t + (l.map f).sum := by
  induction l generalizing t with
  | nil => simp
  | cons a l ih => simp [ih, add_assoc]

/-! ## Tallies of lists -/

/-- How often something has come up, if it has. -/
def recorded (n : Nat) : Option Nat := if n = 0 then none else some n

/-- The sum of the counts of those keys that have a property. -/
def sumWhere {α : Type} (p : α → Bool) (counts : List (α × Nat)) : Nat :=
  ((counts.filter fun e => p e.1).map (·.2)).sum

theorem sumWhere_cons {α : Type} (p : α → Bool) (a : α) (n : Nat) (counts : List (α × Nat)) :
    sumWhere p ((a, n) :: counts) = (if p a then n else 0) + sumWhere p counts := by
  unfold sumWhere
  rw [List.filter_cons]
  split_ifs <;> simp

theorem sumWhere_true {α : Type} (counts : List (α × Nat)) :
    sumWhere (fun _ => true) counts = (counts.map (·.2)).sum := by
  simp [sumWhere]

namespace Tally
variable {α : Type} [Ord α]

theorem total_eq_sumWhere (t : Tally α) : t.total = sumWhere (fun _ => true) t.counts := by
  rw [sumWhere_true, total, foldl_add_sum, Nat.zero_add]

variable [Std.LawfulEqOrd α]

theorem sumWhere_updateEntries (p : α → Bool) (a : α) (n : Nat) (l : List (α × Nat)) :
    sumWhere p (Table.updateEntries a 0 (· + n) l) = sumWhere p l + if p a then n else 0 := by
  induction l with
  | nil => simp only [Table.updateEntries, sumWhere_cons, Nat.zero_add]; omega
  | cons e l ih =>
    obtain ⟨b, m⟩ := e
    unfold Table.updateEntries
    cases h : compare a b with
    | lt => simp only [sumWhere_cons, Nat.zero_add]; omega
    | eq =>
      obtain rfl := Std.compare_eq_iff_eq.mp h
      simp only [sumWhere_cons]
      split_ifs <;> omega
    | gt => simp only [sumWhere_cons, ih]; omega

variable [Std.TransOrd α]

/-- Each element of a list, counted once. -/
def ofList (l : List α) : Tally α := (l.map fun a => Table.single a 1).sum

theorem ofList_cons (a : α) (l : List α) : ofList (a :: l) = Table.single a 1 + ofList l := by
  rw [ofList, List.map_cons, List.sum_cons, ofList]

theorem sumWhere_add (p : α → Bool) (t u : Tally α) :
    sumWhere p (t + u).counts = sumWhere p t.counts + sumWhere p u.counts := by
  obtain ⟨entries, h⟩ := u
  change sumWhere p (entries.foldl (fun t e => t.add e.1 e.2) t).counts =
    sumWhere p t.counts + sumWhere p entries
  clear h
  induction entries generalizing t with
  | nil => rfl
  | cons e entries ih =>
    have hadd : sumWhere p (t.add e.1 e.2).counts =
        sumWhere p t.counts + if p e.1 then e.2 else 0 := sumWhere_updateEntries p e.1 e.2 _
    rw [List.foldl_cons, ih, hadd, sumWhere_cons, Nat.add_assoc]

theorem sumWhere_ofList (p : α → Bool) (l : List α) :
    sumWhere p (ofList l).counts = l.countP p := by
  induction l with
  | nil => rfl
  | cons a l ih =>
    rw [ofList_cons, sumWhere_add, ih, List.countP_cons, Nat.add_comm]
    exact congrArg _ (sumWhere_cons p a 1 [])

variable [DecidableEq α]

theorem get?_ofList (l : List α) (a : α) : (ofList l).get? a = recorded (l.count a) := by
  induction l with
  | nil => rfl
  | cons b l ih =>
    rw [ofList_cons, Table.get?_add, Table.get?_single, ih, List.count_cons]
    by_cases hab : a = b
    · subst hab
      cases h : l.count a <;> simp [recorded, Nat.add_comm]
    · simp [hab, Ne.symm hab]

end Tally

/-! ## Splitting whole symbols -/

namespace SplitTally

instance : Zero SplitTally := ⟨empty⟩

instance : Add SplitTally := ⟨merge⟩

instance : AddCommMonoid SplitTally where
  add_assoc a b c :=
    congrArg₂ mk (add_assoc a.opcodes b.opcodes c.opcodes)
      (add_assoc a.operands b.operands c.operands)
  zero_add a := congrArg₂ mk (zero_add a.opcodes) (zero_add a.operands)
  add_zero a := congrArg₂ mk (add_zero a.opcodes) (add_zero a.operands)
  add_comm a b :=
    congrArg₂ mk (add_comm a.opcodes b.opcodes) (add_comm a.operands b.operands)
  nsmul := nsmulRec

/-- One symbol, counted once. -/
def single : Symbol → SplitTally
  | .bare opcode => ⟨.single opcode 1, 0⟩
  | .fused opcode operand => ⟨.single opcode 1, .single opcode (.single operand 1)⟩

theorem addSymbol_eq_add (t : SplitTally) (x : Symbol) : t.addSymbol x = t + single x := by
  cases x <;> rfl

/-- Each symbol of a list, counted once. -/
def ofList (l : List Symbol) : SplitTally := (l.map single).sum

theorem ofList_cons (x : Symbol) (l : List Symbol) : ofList (x :: l) = single x + ofList l := by
  rw [ofList, List.map_cons, List.sum_cons, ofList]

theorem opcodes_ofList (l : List Symbol) :
    (ofList l).opcodes = Tally.ofList (l.map Symbol.opcode) := by
  induction l with
  | nil => rfl
  | cons x l ih =>
    rw [ofList_cons, List.map_cons, Tally.ofList_cons, ← ih]
    cases x <;> rfl

/-- The operands that come up under an opcode, in order. -/
def operandsUnder (opcode : Nat) (l : List Symbol) : List Nat :=
  l.filterMap fun x => if x.opcode = opcode then x.operand? else none

theorem operandsUnder_bare (opcode o : Nat) (l : List Symbol) :
    operandsUnder opcode (.bare o :: l) = operandsUnder opcode l :=
  List.filterMap_cons_none (ite_self none)

theorem operandsUnder_fused (opcode o a : Nat) (l : List Symbol) :
    operandsUnder opcode (.fused o a :: l) =
      if opcode = o then a :: operandsUnder opcode l else operandsUnder opcode l := by
  split_ifs with h
  · exact List.filterMap_cons_some (if_pos h.symm)
  · exact List.filterMap_cons_none (if_neg (Ne.symm h))

theorem get?_operands_ofList (l : List Symbol) (opcode : Nat) :
    (ofList l).operands.get? opcode =
      if operandsUnder opcode l = [] then none
      else some (Tally.ofList (operandsUnder opcode l)) := by
  induction l with
  | nil => rfl
  | cons x l ih =>
    have hadd : (ofList (x :: l)).operands = (single x).operands + (ofList l).operands :=
      congrArg operands (ofList_cons x l)
    cases x with
    | bare o =>
      have hzero : (single (.bare o)).operands = 0 := rfl
      rw [hadd, hzero, zero_add, ih, operandsUnder_bare]
    | fused o a =>
      have hsingle : (single (.fused o a)).operands = .single o (.single a 1) := rfl
      rw [hadd, hsingle, Table.get?_add, Table.get?_single, ih, operandsUnder_fused]
      by_cases ho : opcode = o
      · subst ho
        cases operandsUnder opcode l <;> simp [Tally.ofList]
      · simp [ho]

theorem count_operandsUnder (l : List Symbol) (opcode operand : Nat) :
    (operandsUnder opcode l).count operand = l.count (.fused opcode operand) := by
  rw [operandsUnder, List.count_filterMap]
  refine List.countP_congr fun x _ => ?_
  cases x with
  | bare o => simp [Symbol.operand?]
  | fused o a => by_cases ho : o = opcode <;> simp [Symbol.opcode, Symbol.operand?, ho]

/-- If symbols are framed, what stands under an opcode that takes operands is all that comes up
with it. -/
theorem length_operandsUnder {l : List Symbol} (h : ∀ x ∈ l, x.IsFramed) {opcode : Nat}
    (hop : hasOperand opcode = true) :
    (operandsUnder opcode l).length = l.countP fun x => x.opcode = opcode := by
  rw [operandsUnder, List.length_filterMap_eq_countP]
  refine List.countP_congr fun x hx => ?_
  by_cases ho : x.opcode = opcode
  · have hframed : x.operand?.isSome = hasOperand x.opcode := h x hx
    simp [ho, hframed, hop]
  · simp [ho]

theorem operandsUnder_eq_nil {l : List Symbol} (h : ∀ x ∈ l, x.IsFramed) {opcode : Nat}
    (hop : hasOperand opcode = false) : operandsUnder opcode l = [] := by
  refine List.filterMap_eq_nil_iff.mpr fun x hx => ?_
  have hframed : x.operand?.isSome = hasOperand x.opcode := h x hx
  split_ifs with ho
  · rw [ho, hop] at hframed
    exact Option.isNone_iff_eq_none.mp (Option.isSome_eq_false_iff.mp hframed)
  · rfl

/-- The counts of opcodes and operands that come from counts of whole symbols: sums of these
under each opcode, these themselves under each pair of opcode and operand, and nothing else. -/
structure Splits (t : SplitTally) (f : FusedTally) : Prop where
  opcodes : ∀ o, t.opcodes.get? o = recorded (sumWhere (fun x => x.opcode = o) f.counts)
  operands : ∀ o a, (t.operands.get? o).bind (·.get? a) = f.get? (.fused o a)
  sum_operands : ∀ o ≤ 6, ((t.operandsOf o).map (·.2)).sum = (t.opcodes.get? o).getD 0
  no_operands : ∀ o, 6 < o → t.operands.get? o = none
  nonempty : ∀ o counted, t.operands.get? o = some counted → counted.counts ≠ []

theorem getD_recorded (n : Nat) : (recorded n).getD 0 = n := by
  unfold recorded
  split_ifs with h
  · exact h.symm
  · rfl

theorem get?_opcodes_ofList (l : List Symbol) (opcode : Nat) :
    (ofList l).opcodes.get? opcode = recorded (l.countP fun x => x.opcode = opcode) := by
  rw [opcodes_ofList, Tally.get?_ofList, List.count_eq_countP, List.countP_map]
  rfl

theorem splits_ofList {l : List Symbol} (h : ∀ x ∈ l, x.IsFramed) :
    (ofList l).Splits (Tally.ofList l) where
  opcodes o := by rw [get?_opcodes_ofList, Tally.sumWhere_ofList]
  operands o a := by
    rw [Tally.get?_ofList, get?_operands_ofList, ← count_operandsUnder]
    split_ifs with hnil
    · rw [hnil]
      rfl
    · exact Tally.get?_ofList _ a
  sum_operands o ho := by
    have hop : hasOperand o = true := decide_eq_true ho
    rw [get?_opcodes_ofList, getD_recorded, ← length_operandsUnder h hop, operandsOf,
      get?_operands_ofList]
    split_ifs with hnil
    · rw [hnil]
      rfl
    · rw [← sumWhere_true, Tally.sumWhere_ofList, List.countP_true]
  no_operands o ho := by
    have hop : hasOperand o = false := decide_eq_false (Nat.not_le_of_lt ho)
    rw [get?_operands_ofList, if_pos (operandsUnder_eq_nil h hop)]
  nonempty o counted hcounted := by
    rw [get?_operands_ofList] at hcounted
    split_ifs at hcounted with hnil
    obtain rfl := Option.some.inj hcounted
    intro hempty
    have hlength := Tally.sumWhere_ofList (fun _ => true) (operandsUnder o l)
    rw [hempty, List.countP_true] at hlength
    exact hnil (List.eq_nil_of_length_eq_zero hlength.symm)

end SplitTally

end GlyphHints
