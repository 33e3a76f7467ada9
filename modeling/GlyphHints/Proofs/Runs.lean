import GlyphHints.Encoder
import GlyphHints.Proofs.Failing
import GlyphHints.Proofs.Granularity

/-!
# Runs of emitted instructions

The encoder aims at a value of a field and emits as many steps as lead there; obeying them
leads to that value, as long as it is a 32-bit number. Only hints, axis switches, RTGAH and
the end of a program do more than move the machine, and those are the instructions at which
`Machine.Settled` says something.
-/
namespace GlyphHints

/-- The largest 32-bit number. -/
def greatestWord : Nat := 4294967295

theorem cappedAdd_of_le {a b : Nat} (h : a + b ≤ greatestWord) : cappedAdd a b = a + b :=
  Nat.min_eq_left h

/-- Whether an instruction only moves the machine. -/
def Instruction.isQuiet : Instruction → Bool
  | .delta _ | .rtgah | .finish | .misc .setXAxis | .misc .setYAxis => false
  | _ => true

namespace Machine

def settings (s : Machine) : Settings := ⟨s.deltaShift, s.deltaBase⟩

/-- What holds of a machine that is about to obey an instruction of an encoded program: a
hint lies in the window of the delta base and is a number of steps that a nybble can hold,
and where an axis, a phase or the program ends the delta base is the initial one. -/
def Settled (s : Machine) : Instruction → Prop
  | .delta _ => s.deltaBase ≤ s.ppem ∧ s.ppem < s.deltaBase + deltaBaseSpan ∧
      s.deltaBase % deltaBaseSpan = initialDeltaBase ∧ s.deltaShift ≤ maxDeltaShift ∧
      ∃ n : Int, n ≠ 0 ∧ n.natAbs ≤ 8 ∧ s.shift = Shift.ofSteps n s.deltaShift
  | .misc .setXAxis | .misc .setYAxis | .rtgah | .finish => s.deltaBase = initialDeltaBase
  | _ => True

theorem settled_of_isQuiet {s : Machine} {i : Instruction} (h : i.isQuiet = true) :
    s.Settled i := by
  cases i with
  | misc m => cases m <;> trivial
  | delta | rtgah | finish => contradiction
  | _ => trivial

/-- Quiet instructions lead from one machine to another. -/
inductive Leads : Machine → List Instruction → Machine → Prop
  | done (s : Machine) : Leads s [] s
  | step {s t u : Machine} {i : Instruction} {is : List Instruction} :
      i.isQuiet = true → s.step i = .ok t → Leads t is u → Leads s (i :: is) u

namespace Leads

theorem append {s t u : Machine} {is js : List Instruction} (h : Leads s is t)
    (k : Leads t js u) : Leads s (is ++ js) u := by
  induction h with
  | done s => exact k
  | step hq hs _ ih => exact .step hq hs (ih k)

theorem single {s t : Machine} {i : Instruction} (hq : i.isQuiet = true)
    (hs : s.step i = .ok t) : Leads s [i] t := .step hq hs (.done t)

theorem isQuiet {s t : Machine} {is : List Instruction} (h : Leads s is t) :
    ∀ i ∈ is, i.isQuiet = true := by
  induction h with
  | done s => simp
  | step hq _ _ ih => exact List.forall_mem_cons.mpr ⟨hq, ih⟩

/-- Equal instructions walk along a sequence of machines. -/
theorem replicate {i : Instruction} (hq : i.isQuiet = true) (f : Nat → Machine) (n : Nat)
    (h : ∀ k < n, (f k).step i = .ok (f (k + 1))) :
    Leads (f 0) (List.replicate n i) (f n) := by
  induction n with
  | zero => exact .done _
  | succ n ih =>
    rw [List.replicate_succ']
    exact (ih fun k hk => h k (hk.trans n.lt_succ_self)).append (.single hq (h n n.lt_succ_self))

end Leads

/-! ## Steps of one field -/

variable {i : Instruction} {f : Nat → Machine} {k n v d : Nat} {s : Machine}

/-- An instruction that adds to a field, obeyed a number of times. -/
theorem leads_add (hq : i.isQuiet = true)
    (hi : ∀ v, (f v).step i = .ok (f (cappedAdd v k))) (h : v + k * n ≤ greatestWord) :
    Leads (f v) (List.replicate n i) (f (v + k * n)) := by
  refine Leads.replicate hq (fun j => f (v + k * j)) n fun j hj => ?_
  have hmul : k * j + k ≤ k * n := by
    rw [← Nat.mul_succ]
    exact Nat.mul_le_mul_left k hj
  rw [hi, cappedAdd_of_le (by omega), Nat.add_assoc, ← Nat.mul_succ]

/-- What is left of a distance, if anything is, taken in one step. -/
theorem leads_rest (make : Nybble → Instruction) (hq : ∀ a, (make a).isQuiet = true)
    (hi : ∀ a v, (f v).step (make a) = .ok (f (cappedAdd v (a.val + 1))))
    (h : v + d % 16 ≤ greatestWord) :
    Leads (f v) (if d % 16 = 0 then [] else [make ⟨d % 16 - 1, by omega⟩])
      (f (v + d % 16)) := by
  split_ifs with hz
  · rw [hz]
    exact .done _
  · refine .single (hq _) ?_
    have hd : d % 16 - 1 + 1 = d % 16 := by omega
    rw [hi, hd, cappedAdd_of_le h]

theorem leads_ppemSteps (h : s.ppem + d ≤ greatestWord) :
    Leads s (Encoder.ppemSteps d) { s with ppem := s.ppem + d } := by
  have hd := Nat.div_add_mod d 16
  have hfull := leads_add (i := .addPpem 15) (f := fun v => { s with ppem := v }) (k := 16)
    (n := d / 16) (v := s.ppem) rfl (fun _ => rfl) (by omega)
  have hrest := leads_rest (f := fun v => { s with ppem := v }) (d := d)
    (v := s.ppem + 16 * (d / 16)) .addPpem (fun _ => rfl) (fun _ _ => rfl) (by omega)
  have hsum : s.ppem + 16 * (d / 16) + d % 16 = s.ppem + d := by omega
  rw [hsum] at hrest
  exact hfull.append hrest

theorem leads_pointSteps (h : s.point + d ≤ greatestWord) :
    Leads s (Encoder.pointSteps d) { s with point := s.point + d } := by
  have h64 := leads_add (i := .misc .addPoint64) (f := fun v => { s with point := v })
    (k := 64) (n := d / 64) (v := s.point) rfl (fun _ => rfl) (by omega)
  have h32 := leads_add (i := .misc .addPoint32) (f := fun v => { s with point := v })
    (k := 32) (n := d % 64 / 32) (v := s.point + 64 * (d / 64)) rfl (fun _ => rfl) (by omega)
  have h16 := leads_add (i := .addPoint 15) (f := fun v => { s with point := v }) (k := 16)
    (n := d % 32 / 16) (v := s.point + 64 * (d / 64) + 32 * (d % 64 / 32)) rfl (fun _ => rfl)
    (by omega)
  have hrest := leads_rest (f := fun v => { s with point := v }) (d := d)
    (v := s.point + 64 * (d / 64) + 32 * (d % 64 / 32) + 16 * (d % 32 / 16)) .addPoint
    (fun _ => rfl) (fun _ _ => rfl) (by omega)
  have hsum : s.point + 64 * (d / 64) + 32 * (d % 64 / 32) + 16 * (d % 32 / 16) + d % 16 =
      s.point + d := by omega
  rw [hsum] at hrest
  exact ((h64.append h32).append h16).append hrest

theorem leads_repeatSteps (hpos : 0 < n) (h : n ≤ greatestWord) :
    Leads s (Encoder.repeatSteps n) { s with repeats := n } := by
  have hfirst : Leads s [.setRepeat ⟨(n - 1) % 16, by omega⟩]
      { s with repeats := (n - 1) % 16 + 1 } := .single rfl rfl
  have h64 := leads_add (i := .misc .addRepeat64) (f := fun v => { s with repeats := v })
    (k := 64) (n := (n - 1) / 16 / 4) (v := (n - 1) % 16 + 1) rfl (fun _ => rfl) (by omega)
  have h32 := leads_add (i := .misc .addRepeat32) (f := fun v => { s with repeats := v })
    (k := 32) (n := (n - 1) / 16 % 4 / 2) (v := (n - 1) % 16 + 1 + 64 * ((n - 1) / 16 / 4)) rfl
    (fun _ => rfl) (by omega)
  have h16 := leads_add (i := .misc .addRepeat16) (f := fun v => { s with repeats := v })
    (k := 16) (n := (n - 1) / 16 % 2) (v := (n - 1) % 16 + 1 + 64 * ((n - 1) / 16 / 4) +
      32 * ((n - 1) / 16 % 4 / 2)) rfl (fun _ => rfl) (by omega)
  have hsum : (n - 1) % 16 + 1 + 64 * ((n - 1) / 16 / 4) + 32 * ((n - 1) / 16 % 4 / 2) +
      16 * ((n - 1) / 16 % 2) = n := by omega
  rw [hsum] at h16
  exact ((hfirst.append h64).append h32).append h16

theorem leads_deltaShiftSteps (hd : d ≤ maxDeltaShift) :
    Leads s (Encoder.deltaShiftSteps s.deltaShift d) { s with deltaShift := d } := by
  have hup := Leads.replicate (i := .misc .incrementDeltaShift) rfl
    (fun k => { s with deltaShift := s.deltaShift + k }) (d - s.deltaShift) fun k hk => by
      have hlt : ¬ maxDeltaShift ≤ s.deltaShift + k := by omega
      simp [step, stepMisc, hlt, Nat.add_assoc]
  have hdown := Leads.replicate (i := .misc .decrementDeltaShift) rfl
    (fun k => { s with deltaShift := s.deltaShift + (d - s.deltaShift) - k })
    (s.deltaShift - d) fun k hk => by
      have hpos : ¬ s.deltaShift + (d - s.deltaShift) - k = 0 := by omega
      simp only [step, stepMisc, hpos, if_false, Nat.sub_sub]
  have hlast : s.deltaShift + (d - s.deltaShift) - (s.deltaShift - d) = d := by omega
  simp only [hlast] at hdown
  exact hup.append hdown

theorem leads_baseSteps {b : Nat} (hb : b ≤ greatestWord)
    (hmod : ((b - s.deltaBase) + (s.deltaBase - b)) % deltaBaseSpan = 0) :
    Leads s (Encoder.repeated (((b - s.deltaBase) + (s.deltaBase - b)) / deltaBaseSpan)
      (if b < s.deltaBase then .decrementDeltaBase else .incrementDeltaBase))
      { s with deltaBase := b } := by
  have hdiv := Nat.div_add_mod ((b - s.deltaBase) + (s.deltaBase - b)) deltaBaseSpan
  set n := ((b - s.deltaBase) + (s.deltaBase - b)) / deltaBaseSpan
  split_ifs with hlt
  · have hdown := Leads.replicate (i := .misc .decrementDeltaBase) rfl
      (fun k => { s with deltaBase := s.deltaBase - deltaBaseSpan * k }) n fun k hk => by
        have hmul : deltaBaseSpan * k + deltaBaseSpan ≤ deltaBaseSpan * n := by
          rw [← Nat.mul_succ]
          exact Nat.mul_le_mul_left _ hk
        have hroom : ¬ s.deltaBase - deltaBaseSpan * k < deltaBaseSpan := by omega
        simp only [step, stepMisc, hroom, if_false, Nat.sub_sub, Nat.mul_succ]
    have hlast : s.deltaBase - deltaBaseSpan * n = b := by omega
    rw [hlast] at hdown
    exact hdown
  · have hup := leads_add (i := .misc .incrementDeltaBase)
      (f := fun v => { s with deltaBase := v }) (k := deltaBaseSpan) (n := n) (v := s.deltaBase)
      rfl (fun _ => rfl) (by omega)
    have hlast : s.deltaBase + deltaBaseSpan * n = b := by omega
    rw [hlast] at hup
    exact hup

end Machine

/-! ## Replays -/

namespace Replay

theorem machine_of_step {r s : Replay} {i : Instruction} (h : r.step i = .ok s) :
    r.machine.step i = .ok s.machine := by
  cases i with
  | delta kind =>
    obtain ⟨post, -, h⟩ := bind_eq_ok.mp h
    obtain ⟨machine, hmachine, h⟩ := bind_eq_ok.mp h
    exact Except.ok.inj h ▸ hmachine
  | _ =>
    obtain ⟨machine, hmachine, h⟩ := bind_eq_ok.mp h
    exact Except.ok.inj h ▸ hmachine

/-- A replay that meets `Machine.Settled` before every instruction. -/
inductive Run : Replay → List Instruction → Replay → Prop
  | done (r : Replay) : Run r [] r
  | step {r s t : Replay} {i : Instruction} {is : List Instruction} :
      r.machine.Settled i → r.step i = .ok s → Run s is t → Run r (i :: is) t

namespace Run
variable {r s t : Replay} {is js : List Instruction} {i : Instruction}

theorem append (h : Run r is s) (k : Run s js t) : Run r (is ++ js) t := by
  induction h with
  | done r => exact k
  | step hi hs _ ih => exact .step hi hs (ih k)

theorem single (hi : r.machine.Settled i) (hs : r.step i = .ok s) : Run r [i] s :=
  .step hi hs (.done s)

theorem run_eq (h : Run r is s) : r.run is = .ok s := by
  induction h with
  | done r => rfl
  | step _ hs _ ih => exact bind_eq_ok.mpr ⟨_, hs, ih⟩

theorem settled (h : Run r (is ++ i :: js) t) : ∃ s, r.run is = .ok s ∧ s.machine.Settled i := by
  induction is generalizing r with
  | nil =>
    cases h with
    | step hi _ _ => exact ⟨r, rfl, hi⟩
  | cons a is ih =>
    cases h with
    | step _ hs hrest =>
      obtain ⟨u, hu, hi⟩ := ih hrest
      exact ⟨u, bind_eq_ok.mpr ⟨_, hs, hu⟩, hi⟩

end Run

/-- Quiet instructions record nothing. -/
theorem run_of_leads {s t : Machine} {is : List Instruction} (h : s.Leads is t)
    (phases : GlyphPhases) : Run ⟨s, phases⟩ is ⟨t, phases⟩ := by
  induction h with
  | done s => exact .done _
  | @step s u _ i _ hq hs _ ih =>
    have hstep : (⟨s, phases⟩ : Replay).step i = .ok ⟨u, phases⟩ := by
      cases i with
      | delta | rtgah => contradiction
      | _ => exact bind_eq_ok.mpr ⟨u, hs, rfl⟩
    exact .step (Machine.settled_of_isQuiet hq) hstep ih

end Replay

end GlyphHints
