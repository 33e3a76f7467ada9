import GlyphHints.Proofs.Reading

/-!
# The symbols of a body

A body is taken apart opcode by opcode, each with the operand it takes, up to the first opcode
that ends it. The symbols found are those whose nybbles make up the body that far, and the
symbols of written instructions are the instructions themselves.
-/
namespace GlyphHints

namespace Symbol

/-- Whether a symbol carries an operand exactly if its opcode takes one. -/
def IsFramed (s : Symbol) : Prop := s.operand?.isSome = hasOperand s.opcode

/-- The last symbol, and no other, ends a body. -/
inductive Closed : List Symbol → Prop
  | finish : Closed [finish]
  | cons {s : Symbol} {symbols : List Symbol} : s ≠ finish → Closed symbols → Closed (s :: symbols)

theorem closed_iff {symbols : List Symbol} :
    Closed symbols ↔ ∃ before, symbols = before ++ [finish] ∧ finish ∉ before := by
  constructor
  · intro h
    induction h with
    | finish => exact ⟨[], rfl, List.not_mem_nil⟩
    | @cons s _ hs _ ih =>
      obtain ⟨before, rfl, hbefore⟩ := ih
      exact ⟨s :: before, rfl, List.not_mem_cons_of_ne_of_not_mem hs.symm hbefore⟩
  · rintro ⟨before, rfl, hbefore⟩
    induction before with
    | nil => exact .finish
    | cons s before ih =>
      obtain ⟨hs, hrest⟩ := List.ne_and_not_mem_of_not_mem_cons hbefore
      exact .cons hs.symm (ih hrest)

/-! ## Splitting -/

theorem splitAfter_fused {opcode : Nat} (hop : hasOperand opcode = true) (met : List Symbol)
    (operand : Nat) (rest : List Nat) : splitAfter met (opcode :: operand :: rest) =
      splitAfter (fused opcode operand :: met) rest := by
  rw [splitAfter, if_pos hop]

theorem splitAfter_bare {opcode : Nat} (hop : hasOperand opcode = false) (met : List Symbol)
    (rest : List Nat) : splitAfter met (opcode :: rest) =
      if opcode = 15 then .ok (finish :: met).reverse
      else splitAfter (bare opcode :: met) rest := by
  rw [splitAfter.eq_def]
  simp [hop]

theorem splitAfter_nybbles {s : Symbol} (hs : s ≠ finish) (hframed : s.IsFramed)
    (met : List Symbol) (rest : List Nat) :
    splitAfter met (s.nybbles ++ rest) = splitAfter (s :: met) rest := by
  cases s with
  | bare opcode =>
    have hne : opcode ≠ 15 := fun he => hs (congrArg bare he)
    exact (splitAfter_bare hframed.symm met rest).trans (if_neg hne)
  | fused opcode operand => exact splitAfter_fused hframed.symm met operand rest

theorem splitAfter_append {symbols : List Symbol} (hclosed : Closed symbols)
    (hframed : ∀ s ∈ symbols, s.IsFramed) (met : List Symbol) (rest : List Nat) :
    splitAfter met (symbols.flatMap nybbles ++ rest) = .ok (met.reverse ++ symbols) := by
  induction hclosed generalizing met with
  | finish =>
    change splitAfter met (15 :: rest) = _
    rw [splitAfter_bare rfl, if_pos rfl, List.reverse_cons]
  | @cons s symbols hs _ ih =>
    have hrest := ih fun t ht => hframed t (List.mem_cons_of_mem s ht)
    have hmet : (s :: met).reverse ++ symbols = met.reverse ++ s :: symbols := by simp
    rw [List.flatMap_cons, List.append_assoc, splitAfter_nybbles hs (hframed s List.mem_cons_self),
      hrest, hmet]

theorem exists_of_splitAfter {met symbols : List Symbol} {body : List Nat}
    (h : splitAfter met body = .ok symbols) : ∃ found rest, symbols = met.reverse ++ found ∧
      Closed found ∧ (∀ s ∈ found, s.IsFramed) ∧ body = found.flatMap nybbles ++ rest := by
  induction met, body using splitAfter.induct with
  | case1 | case2 => simp_all [splitAfter]
  | case3 met opcode hop operand rest ih =>
    rw [splitAfter_fused hop] at h
    obtain ⟨found, rest, rfl, hclosed, hframed, rfl⟩ := ih h
    refine ⟨fused opcode operand :: found, rest, by simp, .cons (by simp [finish]) hclosed, ?_,
      rfl⟩
    exact List.forall_mem_cons.mpr ⟨hop.symm, hframed⟩
  | case4 met rest hop =>
    rw [splitAfter_bare rfl, if_pos rfl] at h
    refine ⟨[finish], rest, by simp [← Except.ok.inj h], .finish, ?_, rfl⟩
    exact List.forall_mem_singleton.mpr rfl
  | case5 met opcode rest hop hne ih =>
    have hop : hasOperand opcode = false := Bool.eq_false_iff.mpr hop
    rw [splitAfter_bare hop, if_neg hne] at h
    obtain ⟨found, rest, rfl, hclosed, hframed, rfl⟩ := ih h
    refine ⟨bare opcode :: found, rest, by simp, .cons (by simpa [finish] using hne) hclosed, ?_,
      rfl⟩
    exact List.forall_mem_cons.mpr ⟨hop.symm, hframed⟩

theorem split_eq_ok_iff {symbols : List Symbol} {body : List Nat} :
    split body = .ok symbols ↔ Closed symbols ∧ (∀ s ∈ symbols, s.IsFramed) ∧
      ∃ rest, body = symbols.flatMap nybbles ++ rest := by
  constructor
  · intro h
    obtain ⟨found, rest, rfl, hclosed, hframed, hbody⟩ := exists_of_splitAfter h
    exact ⟨hclosed, hframed, rest, hbody⟩
  · rintro ⟨hclosed, hframed, rest, rfl⟩
    exact splitAfter_append hclosed hframed [] rest

/-! ## Where a body ends -/

/-- Taken opcode by opcode, each with the operand it takes, a list of values has its first
opcode 15 right at the end of this many values. -/
inductive EndsAfter : Nat → List Nat → Prop
  | finish (rest : List Nat) : EndsAfter 1 (15 :: rest)
  | bare {n opcode : Nat} {rest : List Nat} : hasOperand opcode = false → opcode ≠ 15 →
      EndsAfter n rest → EndsAfter (n + 1) (opcode :: rest)
  | fused {n opcode : Nat} (operand : Nat) {rest : List Nat} : hasOperand opcode = true →
      EndsAfter n rest → EndsAfter (n + 2) (opcode :: operand :: rest)

theorem endsAfter_of_closed {symbols : List Symbol} (hclosed : Closed symbols)
    (hframed : ∀ s ∈ symbols, s.IsFramed) (rest : List Nat) :
    EndsAfter (symbols.flatMap nybbles).length (symbols.flatMap nybbles ++ rest) := by
  induction hclosed with
  | finish => exact .finish rest
  | @cons s _ hs _ ih =>
    have hfirst : s.IsFramed := hframed s List.mem_cons_self
    have hrest := ih fun t ht => hframed t (List.mem_cons_of_mem s ht)
    cases s with
    | bare opcode => exact .bare hfirst.symm (fun he => hs (congrArg Symbol.bare he)) hrest
    | fused opcode operand => exact .fused operand hfirst.symm hrest

theorem endsAfter_of_split {symbols : List Symbol} {body : List Nat}
    (h : split body = .ok symbols) : EndsAfter (symbols.flatMap nybbles).length body := by
  obtain ⟨hclosed, hframed, rest, rfl⟩ := split_eq_ok_iff.mp h
  exact endsAfter_of_closed hclosed hframed rest

end Symbol

/-! ## Instructions as symbols -/

namespace Instruction

def symbol (i : Instruction) : Symbol := .ofParts i.opcode i.operand?

theorem nybbles_symbol (i : Instruction) : i.symbol.nybbles = i.nybbles := by
  unfold symbol nybbles
  cases i.operand? <;> rfl

theorem isFramed_symbol (i : Instruction) : i.symbol.IsFramed := by
  rcases i with m | m | n | n | n | n | m | k | _ | _
  case delta => cases k <;> rfl
  all_goals rfl

theorem symbol_eq_finish {i : Instruction} : i.symbol = .finish ↔ i = .finish := by
  rcases i with m | m | n | n | n | n | m | k | _ | _
  case delta => cases k <;> decide
  all_goals simp [symbol, opcode, operand?, Symbol.ofParts, Symbol.finish]

theorem flatMap_nybbles_symbol (instructions : List Instruction) :
    (instructions.map symbol).flatMap Symbol.nybbles = writeAll instructions := by
  rw [List.flatMap_map]
  exact congrArg (fun f => List.flatMap f instructions) (funext nybbles_symbol)

/-- The symbols of a written program. -/
theorem split_writeAll {instructions : List Instruction} (h : finish ∉ instructions)
    (rest : List Nat) : Symbol.split (writeAll (instructions ++ [finish]) ++ rest) =
      .ok ((instructions ++ [finish]).map symbol) := by
  refine Symbol.split_eq_ok_iff.mpr ⟨?_, ?_, rest, ?_⟩
  · refine Symbol.closed_iff.mpr ⟨instructions.map symbol, List.map_append, fun hmem => ?_⟩
    obtain ⟨i, hi, hsymbol⟩ := List.mem_map.mp hmem
    exact h (symbol_eq_finish.mp hsymbol ▸ hi)
  · intro s hs
    obtain ⟨i, _, rfl⟩ := List.mem_map.mp hs
    exact i.isFramed_symbol
  · rw [flatMap_nybbles_symbol]

end Instruction

end GlyphHints
