import GlyphHints.NybbleStream
import GlyphHints.Proofs.Failing

/-!
# Reading back what was written

A prolog that fits its nybbles is read back whatever follows, and a walk over written
instructions meets exactly these, up to the one that ends the program.
-/
namespace GlyphHints

namespace Prolog

theorem read_nybbles {p : Prolog} (h : p.Fits) (rest : List Nat) :
    read (p.nybbles ++ rest) = .ok (p, p.nybbles.length) := by
  rcases p with ⟨granularity, grain, ppem, point⟩
  obtain ⟨hg, hs, hl, hp, hq⟩ := h
  have hgran : ¬ maxDeltaShift < granularity := Nat.not_lt.mpr hg
  have hpoint : 16 * (point / 16) + point % 16 = point := Nat.div_add_mod point 16
  simp only [minBasePpem] at hl
  by_cases hshort : ppem < minBasePpem + longPpem
  · have hne : ppem - minBasePpem ≠ longPpem := by unfold minBasePpem longPpem at *; omega
    have hppem : minBasePpem + (ppem - minBasePpem) = ppem := by unfold minBasePpem; omega
    simp [nybbles, read, hshort, hgran, hne, hppem, hpoint]
  · have hppem : 16 * (ppem / 16) + ppem % 16 = ppem := Nat.div_add_mod ppem 16
    simp [nybbles, read, hshort, hgran, hppem, hpoint]

/-- The number of values that a prolog at the front of a list takes, as its third value says. -/
def span (values : List Nat) : Nat := if values[2]? = some longPpem then 7 else 5

theorem span_append {values : List Nat} (h : 3 ≤ values.length) (rest : List Nat) :
    span (values ++ rest) = span values := by
  unfold span
  rw [List.getElem?_append_left (by omega)]

/-- What is read is a front of the list, and what follows it does not matter. -/
theorem exists_of_read {values : List Nat} {p : Prolog} {n : Nat} (h : read values = .ok (p, n)) :
    ∃ opening rest, values = opening ++ rest ∧ opening.length = n ∧ n = span opening ∧
      ∀ more, read (opening ++ more) = .ok (p, n) := by
  unfold read at h
  split at h
  · contradiction
  · split at h
    · contradiction
    · rename_i granularity _ hg
      split at h
      · rename_i grain ppem rest
        split at h
        · rename_i hlong
          split at h
          · rename_i ppemHigh ppemLow pointHigh pointLow rest
            cases h
            refine ⟨[granularity, grain, ppem, ppemHigh, ppemLow, pointHigh, pointLow], rest, rfl,
              rfl, by simp [span, hlong], fun more => by simp [read, hg, hlong]⟩
          · contradiction
        · rename_i hshort
          split at h
          · rename_i pointHigh pointLow rest
            cases h
            refine ⟨[granularity, grain, ppem, pointHigh, pointLow], rest, rfl, rfl,
              by simp [span, hshort], fun more => by simp [read, hg, hshort]⟩
          · contradiction
      · contradiction

theorem three_le_span (values : List Nat) : 3 ≤ span values := by
  unfold span
  split <;> decide

/-- The nybbles of a prolog tell that they are all of it, whatever follows. -/
theorem span_of_length {opening : List Nat} (h : opening.length = span opening)
    (rest : List Nat) : span (opening ++ rest) = opening.length := by
  have hthree : 3 ≤ opening.length := h ▸ three_le_span opening
  rw [span_append hthree, h]

/-- The span tells how much is read, and it is all there. -/
theorem read_eq_ok {values : List Nat} {p : Prolog} {n : Nat} (h : read values = .ok (p, n)) :
    n = span values ∧ n ≤ values.length := by
  obtain ⟨opening, rest, rfl, hlength, hspan, -⟩ := exists_of_read h
  have hthree := three_le_span opening
  rw [span_append (by omega), List.length_append]
  exact ⟨hspan, by omega⟩

theorem read_append {values : List Nat} {r : Prolog × Nat} (h : read values = .ok r)
    (more : List Nat) : read (values ++ more) = .ok r := by
  obtain ⟨opening, rest, rfl, -, -, hmore⟩ := exists_of_read h
  rw [List.append_assoc]
  exact hmore (rest ++ more)

/-- A prolog with a granularity that exists is read if it is all there. -/
theorem exists_read_eq_ok {granularity : Nat} {rest : List Nat} (hg : granularity ≤ maxDeltaShift)
    (h : span (granularity :: rest) ≤ (granularity :: rest).length) :
    ∃ p, read (granularity :: rest) = .ok (p, span (granularity :: rest)) := by
  unfold span at *
  match rest, h with
  | [], h | [_], h => simp at h
  | grain :: ppem :: rest, h =>
    by_cases hlong : ppem = longPpem
    · match rest with
      | ppemHigh :: ppemLow :: pointHigh :: pointLow :: rest =>
        simp [read, Nat.not_lt.mpr hg, hlong]
      | [] | [_] | [_, _] | [_, _, _] => simp [hlong] at h
    · match rest with
      | pointHigh :: pointLow :: rest => simp [read, Nat.not_lt.mpr hg, hlong]
      | [] | [_] => simp [hlong] at h

end Prolog

namespace Instruction

theorem writeAll_cons (i : Instruction) (is : List Instruction) :
    writeAll (i :: is) = i.nybbles ++ writeAll is := List.flatMap_cons

theorem writeAll_append (is js : List Instruction) :
    writeAll (is ++ js) = writeAll is ++ writeAll js := List.flatMap_append

end Instruction

namespace Walk

theorem ofOperand_ne_finish (opcode operand : Nat) :
    Instruction.ofOperand opcode operand ≠ .ok .finish := by
  unfold Instruction.ofOperand
  grind

/-- A walk reads one instruction after another. -/
theorem resume_eq (met : List Instruction) (body : List Nat) : resume met body =
    match Instruction.read body with
    | .error e => ⟨met.reverse, some e⟩
    | .ok (i, rest) => if i = .finish then ⟨(.finish :: met).reverse, none⟩
      else resume (i :: met) rest := by
  cases body with
  | nil => rfl
  | cons opcode rest =>
    rw [resume.eq_def, Instruction.read.eq_def]
    by_cases hop : hasOperand opcode = true
    · cases rest with
      | nil => simp [hop]
      | cons operand rest =>
        cases ho : Instruction.ofOperand opcode operand with
        | error e => simp [hop, ho, Except.map]
        | ok i =>
          have hne : i ≠ .finish := by
            rintro rfl
            exact ofOperand_ne_finish opcode operand ho
          simp [hop, ho, Except.map, hne]
    · cases ho : Instruction.ofOpcode opcode with
      | error e => simp [hop, ho, Except.map]
      | ok i => cases i <;> simp [hop, ho, Except.map]

theorem resume_nybbles {i : Instruction} (hi : i ≠ .finish) (met : List Instruction)
    (rest : List Nat) : resume met (i.nybbles ++ rest) = resume (i :: met) rest := by
  rw [resume_eq, Instruction.read_nybbles]
  simp [hi]

theorem resume_writeAll {instructions : List Instruction} (h : .finish ∉ instructions)
    (met : List Instruction) (rest : List Nat) :
    resume met (Instruction.writeAll instructions ++ rest) =
      resume (instructions.reverse ++ met) rest := by
  induction instructions generalizing met with
  | nil => rfl
  | cons i instructions ih =>
    have hi : i ≠ .finish := fun he => h (he ▸ List.mem_cons_self)
    rw [Instruction.writeAll_cons, List.append_assoc, resume_nybbles hi,
      ih fun hm => h (List.mem_cons_of_mem i hm)]
    simp

theorem ofBody_writeAll {instructions : List Instruction} (h : .finish ∉ instructions) :
    ofBody (Instruction.writeAll instructions) = ⟨instructions, some .truncatedStream⟩ := by
  have hw := resume_writeAll h [] []
  rw [List.append_nil, List.append_nil] at hw
  rw [ofBody, hw, resume, List.reverse_reverse]

theorem ofBody_writeAll_finish {instructions : List Instruction} (h : .finish ∉ instructions)
    (rest : List Nat) :
    ofBody (Instruction.writeAll (instructions ++ [.finish]) ++ rest) =
      ⟨instructions ++ [.finish], none⟩ := by
  have hfinish : Instruction.writeAll [.finish] = Instruction.nybbles .finish := rfl
  rw [ofBody, Instruction.writeAll_append, List.append_assoc, resume_writeAll h, hfinish,
    resume_eq, Instruction.read_nybbles]
  simp

end Walk

namespace NybbleStream

/-- The stream of a prolog and instructions. -/
def ofInstructions (p : Prolog) (fits : p.Fits) (instructions : List Instruction) :
    NybbleStream :=
  ⟨p.nybbles ++ Instruction.writeAll instructions, fun n hn =>
    (List.mem_append.mp hn).elim (fits.nybbles_lt n) (Instruction.writeAll_lt n)⟩

variable {p : Prolog} (fits : p.Fits) {instructions : List Instruction}

/-- A body is walked to the instruction that ends it. -/
theorem walk_of_body {s : NybbleStream} {length : Nat} (hp : s.prolog = .ok (p, length))
    (hbody : s.nybbles.drop length = Instruction.writeAll (instructions ++ [.finish]))
    (hfinish : .finish ∉ instructions) : s.walk = .ok ⟨instructions ++ [.finish], none⟩ := by
  have hread := Walk.ofBody_writeAll_finish hfinish []
  rw [List.append_nil, ← hbody] at hread
  simp [walk, body, hp, Except.map, hread]

theorem prolog_ofInstructions :
    (ofInstructions p fits instructions).prolog = .ok (p, p.nybbles.length) :=
  Prolog.read_nybbles fits _

theorem walk_ofInstructions : (ofInstructions p fits instructions).walk =
    .ok (Walk.ofBody (Instruction.writeAll instructions)) := by
  rw [walk, body, prolog_ofInstructions]
  simp [Except.map, ofInstructions]

end NybbleStream

end GlyphHints
