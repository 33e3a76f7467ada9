import GlyphHints.Proofs.Reading

/-!
# Streams that cannot be read

Any list of nybbles may be given as a stream. Its prolog is refused for its granularity or for
its length, and the walk over its body ends with the instruction that ends a program or at
nybbles that are no instruction. Few errors can come of that, and every one of them is named here.
-/
namespace GlyphHints

/-- What reading a stream or obeying it can fail with. -/
inductive Error.IsOfStream : Error → Prop
  | granularity {g : Nat} : 7 ≤ g → g ≤ 15 → IsOfStream (.invalidGranularity g)
  | truncated : IsOfStream .truncatedStream
  | reserved : IsOfStream (.reservedOpcode 7)
  | unknown {operand : Nat} : 13 ≤ operand → operand ≤ 15 → IsOfStream (.unknownMisc operand)
  | operand {opcode operand : Nat} : IsOfStream (.invalidOperand opcode operand)

/-- What nybbles that are all there can fail with as an instruction. -/
inductive Error.IsOfMeaning : Error → Prop
  | reserved : IsOfMeaning (.reservedOpcode 7)
  | unknown {operand : Nat} : 13 ≤ operand → operand ≤ 15 → IsOfMeaning (.unknownMisc operand)
  | operand {opcode operand : Nat} : opcode ≤ 1 → 8 ≤ operand → operand ≤ 15 →
      IsOfMeaning (.invalidOperand opcode operand)

theorem Error.IsOfMeaning.isOfStream {e : Error} (h : e.IsOfMeaning) : e.IsOfStream := by
  cases h with
  | reserved => exact .reserved
  | unknown hlow hhigh => exact .unknown hlow hhigh
  | operand => exact .operand

namespace Prolog
variable {values : List Nat}

theorem read_eq_error {e : Error} (h : read values = .error e) : e = .truncatedStream ∨
    ∃ g, values.head? = some g ∧ maxDeltaShift < g ∧ e = .invalidGranularity g := by
  unfold read at h
  split at h
  · exact .inl (Except.error.inj h).symm
  · rename_i granularity rest
    split_ifs at h with hg
    · exact .inr ⟨granularity, rfl, hg, (Except.error.inj h).symm⟩
    · refine .inl ?_
      split at h
      · split_ifs at h <;> split at h <;> first | contradiction | exact (Except.error.inj h).symm
      · exact (Except.error.inj h).symm

theorem read_of_lt {g : Nat} (h : maxDeltaShift < g) (rest : List Nat) :
    read (g :: rest) = .error (.invalidGranularity g) := by
  rw [read.eq_def]
  exact if_pos h

/-- The base shift is a grain of the granularity. -/
theorem base_of_read {p : Prolog} {n : Nat} (hlt : ∀ v ∈ values, v < 16)
    (h : read values = .ok (p, n)) : p.granularity ≤ maxDeltaShift ∧ p.shiftGrain < 16 := by
  unfold read at h
  split at h
  · contradiction
  · split_ifs at h with hg
    split at h
    · simp only [List.forall_mem_cons] at hlt
      split_ifs at h <;> split at h <;> first
        | contradiction
        | cases h; exact ⟨Nat.le_of_not_lt hg, hlt.2.1⟩
    · contradiction

end Prolog

/-! ## Nybbles that are no instruction -/

theorem Mask.bits_of_ofBits? {bits : Nat} {m : Mask} (h : ofBits? bits = some m) :
    m.bits = bits := by
  have hall : ∀ bits ≤ 7, (ofBits? bits).map Mask.bits = some bits := by decide
  have hle : bits ≤ 7 := by
    by_contra hgt
    rw [ofBits?, if_neg hgt] at h
    contradiction
  have hbits := hall bits hle
  rw [h] at hbits
  exact Option.some.inj hbits

/-- Masks are refused from 8 on. -/
theorem Mask.lt_of_ofBits?_eq_none {bits : Nat} (h : ofBits? bits = none) : 7 < bits := by
  unfold ofBits? at h
  split_ifs at h with hle
  exact Nat.lt_of_not_le hle

theorem Misc.operand_of_ofOperand? {operand : Nat} {m : Misc}
    (h : ofOperand? operand = some m) : m.operand = operand := by
  have hfound := List.find?_some h
  simpa using hfound

/-- Operands are refused from 13 on. -/
theorem Misc.lt_of_ofOperand?_eq_none {operand : Nat} (h : ofOperand? operand = none) :
    12 < operand := by
  have hall : ∀ operand ≤ 12, ofOperand? operand ≠ none := by decide
  exact Nat.lt_of_not_le fun hle => hall operand hle h

namespace Instruction
variable {opcode operand : Nat} {values rest : List Nat} {i : Instruction} {e : Error}

theorem nybbles_of_ofOpcode (h : ofOpcode opcode = .ok i) : i.nybbles = [opcode] := by
  unfold ofOpcode at h
  split_ifs at h with hrtgah hfinish
  · cases h
    exact congrArg (fun n => [n]) hrtgah.symm
  · cases h
    exact congrArg (fun n => [n]) hfinish.symm
  · split at h
    · rename_i kind hkind
      cases h
      have hfound := List.find?_some hkind
      have hopcode : kind.opcode = opcode := by simpa using hfound
      exact congrArg (fun n => [n]) hopcode
    · contradiction

theorem nybbles_of_ofOperand (hop : hasOperand opcode = true)
    (h : ofOperand opcode operand = .ok i) : i.nybbles = [opcode, operand] := by
  have hle : opcode ≤ 6 := of_decide_eq_true hop
  unfold ofOperand at h
  split_ifs at h with hlt
  dsimp only at h
  split at h
  case h_7 hreset hauto hrepeat hppem hpoint hshift =>
    obtain rfl : opcode = 6 := by grind
    split at h
    · rename_i m hm
      cases h
      rw [← Misc.operand_of_ofOperand? hm]
      rfl
    · contradiction
  case h_1 | h_2 =>
    split at h
    · rename_i m hm
      cases h
      rw [← Mask.bits_of_ofBits? hm]
      rfl
    · contradiction
  all_goals
    cases h
    rfl

/-- Of the opcodes without operand, 7 alone is no instruction. -/
theorem eq_of_ofOpcode_eq_error (hop : hasOperand opcode = false) (hlt : opcode < 16)
    (h : ofOpcode opcode = .error e) : e = .reservedOpcode 7 := by
  have hgt : ¬ opcode ≤ 6 := of_decide_eq_false hop
  have hall : ∀ opcode < 16, ¬ opcode ≤ 6 → opcode = 7 ∨ (ofOpcode opcode).isOk = true := by
    decide
  rcases hall opcode hlt hgt with rfl | hok
  · exact (Except.error.inj h).symm
  · rw [h] at hok
    contradiction

theorem eq_of_ofOperand_eq_error (hlt : operand < 16)
    (h : ofOperand opcode operand = .error e) :
    opcode ≤ 1 ∧ 8 ≤ operand ∧ e = .invalidOperand opcode operand ∨
      13 ≤ operand ∧ e = .unknownMisc operand := by
  unfold ofOperand at h
  rw [dif_pos hlt] at h
  dsimp only at h
  split at h
  case h_1 | h_2 =>
    split at h
    · contradiction
    · rename_i hnone
      exact .inl ⟨by decide, Mask.lt_of_ofBits?_eq_none hnone, (Except.error.inj h).symm⟩
  case h_7 =>
    split at h
    · contradiction
    · rename_i hnone
      exact .inr ⟨Misc.lt_of_ofOperand?_eq_none hnone, (Except.error.inj h).symm⟩
  all_goals contradiction

/-- What is read is what was written. -/
theorem read_eq_ok_iff : read values = .ok (i, rest) ↔ values = i.nybbles ++ rest := by
  constructor
  · intro h
    unfold read at h
    split at h
    · contradiction
    · split_ifs at h with hop
      · split at h
        · contradiction
        · obtain ⟨j, hj, hpair⟩ := map_eq_ok.mp h
          obtain ⟨rfl, rfl⟩ := Prod.mk.inj hpair
          rw [nybbles_of_ofOperand hop hj]
          rfl
      · obtain ⟨j, hj, hpair⟩ := map_eq_ok.mp h
        obtain ⟨rfl, rfl⟩ := Prod.mk.inj hpair
        rw [nybbles_of_ofOpcode hj]
        rfl
  · rintro rfl
    exact i.read_nybbles rest

/-- Nybbles are no instruction because too few of them are there, or for what they mean. -/
theorem read_eq_error (hlt : ∀ v ∈ values, v < 16) (h : read values = .error e) :
    e = .truncatedStream ∧ (values = [] ∨ ∃ opcode, hasOperand opcode = true ∧ values = [opcode]) ∨
      e.IsOfMeaning := by
  unfold read at h
  split at h
  · exact .inl ⟨(Except.error.inj h).symm, .inl rfl⟩
  · rename_i opcode rest
    obtain ⟨hopcode, hrest⟩ := List.forall_mem_cons.mp hlt
    split_ifs at h with hop
    · split at h
      · exact .inl ⟨(Except.error.inj h).symm, .inr ⟨opcode, hop, rfl⟩⟩
      · obtain ⟨hoperand, -⟩ := List.forall_mem_cons.mp hrest
        have hle := Nat.le_of_lt_succ hoperand
        rcases eq_of_ofOperand_eq_error hoperand (map_eq_error.mp h) with
          ⟨hmask, hlow, rfl⟩ | ⟨hlow, rfl⟩
        · exact .inr (.operand hmask hlow hle)
        · exact .inr (.unknown hlow hle)
    · rw [eq_of_ofOpcode_eq_error (Bool.eq_false_iff.mpr hop) hopcode (map_eq_error.mp h)]
      exact .inr .reserved

theorem isOfStream_of_read (hlt : ∀ v ∈ values, v < 16) (h : read values = .error e) :
    e.IsOfStream := by
  rcases read_eq_error hlt h with ⟨rfl, -⟩ | hmeaning
  · exact .truncated
  · exact hmeaning.isOfStream

theorem length_nybbles_pos (i : Instruction) : 0 < i.nybbles.length := Nat.succ_pos _

theorem length_lt_of_read (h : read values = .ok (i, rest)) : rest.length < values.length := by
  rw [read_eq_ok_iff.mp h, List.length_append]
  exact Nat.lt_add_of_pos_left i.length_nybbles_pos

end Instruction

/-! ## Where a walk ends -/

namespace Walk

/-- The instructions at the front of a body up to the one that ends the program, or up to the
error that stands there instead. -/
inductive Meets : List Nat → List Instruction → Option Error → Prop
  | fault {body : List Nat} {e : Error} : Instruction.read body = .error e → Meets body [] (some e)
  | finish (rest : List Nat) : Meets (Instruction.finish.nybbles ++ rest) [.finish] none
  | cons {i : Instruction} {rest : List Nat} {is : List Instruction} {fault : Option Error} :
      i ≠ .finish → Meets rest is fault → Meets (i.nybbles ++ rest) (i :: is) fault

theorem exists_meets (body : List Nat) : ∃ is fault, Meets body is fault ∧
    ∀ met, resume met body = ⟨met.reverse ++ is, fault⟩ := by
  cases hread : Instruction.read body with
  | error e =>
    refine ⟨[], some e, .fault hread, fun met => ?_⟩
    rw [resume_eq, hread, List.append_nil]
  | ok r =>
    obtain ⟨i, rest⟩ := r
    have hbody := Instruction.read_eq_ok_iff.mp hread
    by_cases hi : i = .finish
    · refine ⟨[.finish], none, hbody ▸ hi ▸ .finish rest, fun met => ?_⟩
      rw [resume_eq, hread]
      simp [hi]
    · obtain ⟨is, fault, hmeets, hresume⟩ := exists_meets rest
      refine ⟨i :: is, fault, hbody ▸ .cons hi hmeets, fun met => ?_⟩
      rw [hbody, resume_nybbles hi, hresume]
      simp
termination_by body.length
decreasing_by exact Instruction.length_lt_of_read hread

/-- A walk reads what is there, and stops where it has to. -/
theorem meets_ofBody (body : List Nat) :
    Meets body (ofBody body).instructions (ofBody body).fault := by
  obtain ⟨is, fault, hmeets, hresume⟩ := exists_meets body
  rw [ofBody, hresume]
  exact hmeets

namespace Meets
variable {body : List Nat} {is : List Instruction} {fault : Option Error}

theorem length_le (h : Meets body is fault) : is.length ≤ body.length := by
  induction h with
  | fault => exact Nat.zero_le _
  | finish rest => exact Nat.succ_le_succ (Nat.zero_le _)
  | @cons i rest is _ _ _ ih =>
    have hpos := i.length_nybbles_pos
    rw [List.length_append, List.length_cons]
    omega

theorem isOfStream (h : Meets body is fault) (hlt : ∀ v ∈ body, v < 16) :
    ∀ e, fault = some e → e.IsOfStream := by
  induction h with
  | fault hread => exact fun e he => Option.some.inj he ▸ Instruction.isOfStream_of_read hlt hread
  | finish => exact fun e he => nomatch he
  | cons _ _ ih => exact ih fun v hv => hlt v (List.mem_append_right _ hv)

end Meets

end Walk

namespace NybbleStream
variable {s : NybbleStream}

theorem isOfStream_of_prolog {e : Error} (h : s.prolog = .error e) : e.IsOfStream := by
  rcases Prolog.read_eq_error h with rfl | ⟨g, hg, hlarge, rfl⟩
  · exact .truncated
  · have hlt := s.nybbles_lt g (List.mem_of_mem_head? hg)
    exact .granularity hlarge (Nat.le_of_lt_succ hlt)

theorem walk_eq_ok_iff {w : Walk} : s.walk = .ok w ↔
    ∃ p n, s.prolog = .ok (p, n) ∧ w = Walk.ofBody (s.nybbles.drop n) := by
  unfold walk body
  rcases s.prolog with e | ⟨p, n⟩
  · simp [Except.map]
  · simp [Except.map, eq_comm]

/-- A walk meets what stands behind the prolog. -/
theorem meets_of_walk {w : Walk} (h : s.walk = .ok w) : ∃ p n, s.prolog = .ok (p, n) ∧
    Walk.Meets (s.nybbles.drop n) w.instructions w.fault := by
  obtain ⟨p, n, hp, rfl⟩ := walk_eq_ok_iff.mp h
  exact ⟨p, n, hp, Walk.meets_ofBody _⟩

/-- A stream holds no more instructions than nybbles. -/
theorem length_instructions_le {w : Walk} (h : s.walk = .ok w) :
    w.instructions.length ≤ s.length := by
  obtain ⟨p, n, -, hmeets⟩ := meets_of_walk h
  have hle := hmeets.length_le
  rw [List.length_drop] at hle
  exact Nat.le_trans hle (Nat.sub_le _ _)

theorem isOfStream_of_fault {w : Walk} {e : Error} (h : s.walk = .ok w) (he : w.fault = some e) :
    e.IsOfStream := by
  obtain ⟨p, n, -, hmeets⟩ := meets_of_walk h
  exact hmeets.isOfStream (fun v hv => s.nybbles_lt v (List.mem_of_mem_drop hv)) e he

end NybbleStream

end GlyphHints
