import GlyphHints.Proofs.BaseValues
import GlyphHints.Spark.Analysis
import Mathlib.Data.List.Induction

/-!
# Which hints a Spark program records

A spec means a hint under the settings of its place. These are what the latest instruction of
each kind in front of it has set, or what every program starts with, and RTGAH leaves them alone.

The second phase holds what is resolved behind the last RTGAH. The first phase holds what is
resolved between the last RTGAH and the one before it: a program with two of them loses what it
has recorded in front of the first, unless the same hints are resolved again between the two.
-/
namespace GlyphHints.Spark

/-! ## Settings -/

namespace Instruction

def axis? : Instruction → Option Axis
  | .setAxis axis => some axis
  | _ => none

def deltaBase? : Instruction → Option Nat
  | .setDeltaBase deltaBase => some deltaBase
  | _ => none

def deltaShift? : Instruction → Option Nat
  | .setDeltaShift deltaShift => some deltaShift
  | _ => none

end Instruction

/-- What the latest instruction of each kind has set. -/
def Context.latest (before : List Instruction) : Context where
  axis := (before.filterMap Instruction.axis?).getLast?.getD .x
  deltaBase := (before.filterMap Instruction.deltaBase?).getLast?.getD initialDeltaBase
  deltaShift := (before.filterMap Instruction.deltaShift?).getLast?.getD initialDeltaShift

theorem Context.latest_concat (before : List Instruction) (i : Instruction) :
    latest (before ++ [i]) = (latest before).after i := by
  cases i <;>
    simp [latest, after, Instruction.axis?, Instruction.deltaBase?, Instruction.deltaShift?]

/-! ## Hints -/

/-- A spec of the delta means this hint under the settings. -/
inductive Delta.Resolves (d : Delta) (c : Context) : Axis × Hint → Prop
  | spec {point : Option Nat} {specs : List Spec} {spec : Spec} {ppem : Nat} {shift : Shift} :
      (point, specs) ∈ d.entries → spec ∈ specs →
      spec.resolve d.band c.deltaBase c.deltaShift = (ppem, shift) →
      Resolves d c (c.axis, ⟨ppem, shift, point, d.kind⟩)

theorem Delta.mem_hints_iff {d : Delta} {c : Context} {e : Axis × Hint} :
    e ∈ (d.hints c).map (c.axis, ·) ↔ d.Resolves c e := by
  constructor
  · intro he
    obtain ⟨h, hh, rfl⟩ := List.mem_map.mp he
    obtain ⟨⟨point, specs⟩, hentry, hh⟩ := List.mem_flatMap.mp hh
    obtain ⟨spec, hspec, rfl⟩ := List.mem_map.mp hh
    exact .spec hentry hspec rfl
  · intro he
    cases he with
    | @spec point specs spec ppem shift hentry hspec hresolve =>
      apply List.mem_map_of_mem
      apply List.mem_flatMap.mpr
      refine ⟨(point, specs), hentry, List.mem_map.mpr ⟨spec, hspec, ?_⟩⟩
      cases hresolve
      rfl

/-- A delta resolves to this hint at its place, and `n` RTGAHs are behind it. -/
def Resolved (is : List Instruction) (n : Nat) (e : Axis × Hint) : Prop :=
  ∃ before d after, is = before ++ .delta d :: after ∧ after.count .rtgah = n ∧
    d.Resolves (.latest before) e

section
variable {is : List Instruction} {i : Instruction} {n : Nat} {e : Axis × Hint}

/-- The last instruction resolves to hints or has the earlier ones in front of it. -/
theorem resolved_concat : Resolved (is ++ [i]) n e ↔
    (∃ d, i = .delta d ∧ n = 0 ∧ d.Resolves (.latest is) e) ∨
      ∃ m, Resolved is m e ∧ n = m + [i].count .rtgah := by
  constructor
  · intro h
    obtain ⟨before, d, after, hsplit, hcount, hd⟩ := h
    cases after using List.reverseRecOn with
    | nil =>
      obtain ⟨rfl, hi⟩ := List.append_inj' hsplit rfl
      exact .inl ⟨d, List.singleton_inj.mp hi, hcount.symm, hd⟩
    | append_singleton after j =>
      rw [← List.cons_append, ← List.append_assoc] at hsplit
      obtain ⟨rfl, hi⟩ := List.append_inj' hsplit rfl
      rw [List.count_append] at hcount
      exact .inr ⟨_, ⟨before, d, after, rfl, rfl, hd⟩, hi ▸ hcount.symm⟩
  · intro h
    cases h with
    | inl h =>
      obtain ⟨d, rfl, rfl, hd⟩ := h
      exact ⟨is, d, [], rfl, rfl, hd⟩
    | inr h =>
      obtain ⟨m, ⟨before, d, after, rfl, rfl, hd⟩, rfl⟩ := h
      refine ⟨before, d, after ++ [i], ?_, List.count_append, hd⟩
      simp

theorem not_resolved_nil : ¬ Resolved [] n e := by
  intro h
  obtain ⟨before, d, after, hsplit, -⟩ := h
  simp at hsplit

theorem Resolved.rtgah_mem (h : Resolved is (n + 1) e) : .rtgah ∈ is := by
  obtain ⟨before, d, after, rfl, hcount, -⟩ := h
  have hpos : 0 < after.count .rtgah := hcount ▸ Nat.succ_pos n
  apply List.mem_append_right
  exact List.mem_cons_of_mem _ (List.count_pos_iff.mp hpos)

theorem resolved_concat_rtgah :
    Resolved (is ++ [.rtgah]) n e ↔ ∃ m, n = m + 1 ∧ Resolved is m e := by
  rw [resolved_concat]
  simp [and_comm]

theorem resolved_concat_delta {d : Delta} : Resolved (is ++ [.delta d]) n e ↔
    n = 0 ∧ d.Resolves (.latest is) e ∨ Resolved is n e := by
  rw [resolved_concat]
  simp

theorem resolved_concat_setting (hr : i ≠ .rtgah) (hd : ∀ d, i ≠ .delta d) :
    Resolved (is ++ [i]) n e ↔ Resolved is n e := by
  rw [resolved_concat]
  simp [hr, hd]

end

/-! ## Analyzing -/

/-- What has been recorded after some instructions. -/
structure Analysis.Records (a : Analysis) (done : List Instruction) : Prop where
  context : a.context = .latest done
  pre_eq_none : a.phases.pre = none ↔ .rtgah ∉ done
  mem_pre : ∀ pre ∈ a.phases.pre, ∀ e, e ∈ pre.entries ↔ Resolved done 1 e
  mem_post : ∀ e, e ∈ a.phases.post.entries ↔ Resolved done 0 e

theorem Analysis.records_start : start.Records [] where
  context := rfl
  pre_eq_none := by simp [start]
  mem_pre := by simp [start]
  mem_post e := by simp [start, PhaseMap.empty, not_resolved_nil]

theorem Analysis.Records.setting {a : Analysis} {done : List Instruction} {i : Instruction}
    (ha : a.Records done) (hr : i ≠ .rtgah) (hd : ∀ d, i ≠ .delta d) :
    Records { a with context := a.context.after i } (done ++ [i]) where
  context := by rw [ha.context, Context.latest_concat]
  pre_eq_none := by
    rw [ha.pre_eq_none]
    simp [hr.symm]
  mem_pre pre hpre e := by rw [ha.mem_pre pre hpre, resolved_concat_setting hr hd]
  mem_post e := by rw [ha.mem_post, resolved_concat_setting hr hd]

theorem Analysis.Records.step {a b : Analysis} {done : List Instruction} {i : Instruction}
    (ha : a.Records done) (h : a.step i = .ok b) : b.Records (done ++ [i]) := by
  cases i with
  | setAxis | setDeltaBase | setDeltaShift =>
    cases h
    exact ha.setting (by simp) (by simp)
  | rtgah =>
    cases h
    constructor
    · rw [ha.context, Context.latest_concat]
    · simp
    · intro pre hpre e
      cases hpre
      rw [ha.mem_post, resolved_concat_rtgah]
      simp
    · intro e
      rw [resolved_concat_rtgah]
      simp [PhaseMap.empty]
  | delta d =>
    obtain ⟨post, hpost, hb⟩ := bind_eq_ok.mp h
    cases hb
    constructor
    · rw [ha.context, Context.latest_concat]
    · rw [ha.pre_eq_none]
      simp
    · intro pre hpre e
      rw [ha.mem_pre pre hpre, resolved_concat_delta]
      simp
    · intro e
      rw [PhaseMap.mem_of_insertAll hpost, Delta.mem_hints_iff, ha.context, ha.mem_post,
        resolved_concat_delta]
      simp

namespace Program
variable {p : Program} {phases : GlyphPhases}

/-- A delta of the program resolves to this hint, and `n` RTGAHs are behind it. -/
def Resolves (p : Program) (n : Nat) (e : Axis × Hint) : Prop := Resolved p.instructions n e

theorem records_of_analyze (h : p.analyze = .ok phases) :
    ∃ a : Analysis, a.Records p.instructions ∧ a.phases = phases := by
  obtain ⟨a, ha, rfl⟩ := map_eq_ok.mp h
  have hrecords := foldlM_extends (P := Analysis.Records) (fun _ _ _ _ _ hb hc => hb.step hc)
    Analysis.records_start ha
  exact ⟨a, hrecords, rfl⟩

/-- No hint of the program is lost: what is resolved behind the last RTGAH is in the second phase,
and all that is resolved in front of it in the first. -/
structure Keeps (p : Program) (phases : GlyphPhases) : Prop where
  mem_entries : ∀ e, e ∈ phases.entries ↔ ∃ n, p.Resolves n e
  mem_post : ∀ e, e ∈ phases.post.entries ↔ p.Resolves 0 e
  pre_eq_none : phases.pre = none ↔ .rtgah ∉ p.instructions
  mem_pre : ∀ pre ∈ phases.pre, ∀ e, e ∈ pre.entries ↔ ∃ n, p.Resolves (n + 1) e

theorem mem_entries_of_records {a : Analysis} (ha : a.Records p.instructions) (e : Axis × Hint) :
    e ∈ a.phases.entries ↔ p.Resolves 0 e ∨ p.Resolves 1 e := by
  cases hpre : a.phases.pre with
  | none =>
    have hno : ¬ p.Resolves 1 e := fun h => ha.pre_eq_none.mp hpre h.rtgah_mem
    rw [GlyphPhases.entries, hpre, or_iff_left hno]
    exact ha.mem_post e
  | some pre =>
    rw [GlyphPhases.entries, hpre, List.mem_append, or_comm]
    exact or_congr (ha.mem_post e) (ha.mem_pre pre hpre e)

/-- The second phase is what is resolved behind the last RTGAH. The first phase is there if there
is an RTGAH, and it is what is resolved between the last one and the one before it. So a program
keeps its hints exactly if those in front of two RTGAHs are resolved again between the last two. -/
theorem analyze_phases (h : p.analyze = .ok phases) :
    (phases.pre = none ↔ .rtgah ∉ p.instructions) ∧
    (∀ e, e ∈ phases.post.entries ↔ p.Resolves 0 e) ∧
    (∀ pre ∈ phases.pre, ∀ e, e ∈ pre.entries ↔ p.Resolves 1 e) ∧
    (p.Keeps phases ↔ ∀ n e, p.Resolves (n + 2) e → p.Resolves 1 e) := by
  obtain ⟨a, ha, rfl⟩ := records_of_analyze h
  refine ⟨ha.pre_eq_none, ha.mem_post, ha.mem_pre, ?_⟩
  constructor
  · intro hkeeps n e he
    have hsome : a.phases.pre ≠ none := fun hnone => ha.pre_eq_none.mp hnone he.rtgah_mem
    obtain ⟨pre, hpre⟩ := Option.ne_none_iff_exists'.mp hsome
    exact (ha.mem_pre pre hpre e).mp ((hkeeps.mem_pre pre hpre e).mpr ⟨n + 1, he⟩)
  · intro hagain
    have hlast : ∀ n e, p.Resolves (n + 1) e → p.Resolves 1 e := by
      intro n e he
      cases n with
      | zero => exact he
      | succ n => exact hagain n e he
    refine ⟨fun e => ?_, ha.mem_post, ha.pre_eq_none, fun pre hpre e => ?_⟩
    · rw [mem_entries_of_records ha]
      constructor
      · intro he
        exact he.elim (fun h => ⟨0, h⟩) (fun h => ⟨1, h⟩)
      · intro he
        obtain ⟨n, he⟩ := he
        cases n with
        | zero => exact .inl he
        | succ n => exact .inr (hlast n e he)
    · rw [ha.mem_pre pre hpre]
      exact ⟨fun he => ⟨0, he⟩, fun he => he.elim fun n he => hlast n e he⟩

/-- Three stretches around two RTGAHs, with other settings from the second on. -/
def stretches : Program :=
  ⟨false, .old, [.delta ⟨.deltaG, 1, [(none, [⟨0x59⟩])]⟩, .rtgah, .setAxis .y, .setDeltaShift 2,
    .delta ⟨.deltaG, 1, [(none, [⟨0x59⟩])]⟩, .rtgah,
    .delta ⟨.deltaS, 1, [(some 2, [⟨0x5A⟩])]⟩]⟩

def stretchesPre : PhaseMap :=
  PhaseMap.empty.add .y ⟨14, .pixels (1 / 2), none, .deltaG⟩ (by decide +kernel)

def stretchesPost : PhaseMap :=
  PhaseMap.empty.add .y ⟨14, .pixels (3 / 4), some 2, .deltaS⟩ (by decide +kernel)

theorem analyze_phases_stretches :
    stretches.analyze = .ok ⟨some stretchesPre, stretchesPost⟩ ∧
    (∀ e, e ∈ stretchesPost.entries ↔ stretches.Resolves 0 e) ∧
    (∀ e, e ∈ stretchesPre.entries ↔ stretches.Resolves 1 e) ∧
    (stretches.Keeps ⟨some stretchesPre, stretchesPost⟩ ↔
      ∀ n e, stretches.Resolves (n + 2) e → stretches.Resolves 1 e) := by
  have h : stretches.analyze = .ok ⟨some stretchesPre, stretchesPost⟩ := by decide +kernel
  obtain ⟨-, hpost, hpre, hkeeps⟩ := analyze_phases h
  exact ⟨h, hpost, hpre stretchesPre rfl, hkeeps⟩

/-- A hint with two RTGAHs behind it. -/
def twice : Program :=
  ⟨false, .old, [.delta ⟨.deltaG, 1, [(none, [⟨0x59⟩])]⟩, .rtgah, .rtgah]⟩

def twiceBytes : List UInt8 :=
  [0x7F, 0xF8, 0x00, 0x0B, 0xA1, 0x01, 0x59, 0x7F, 0x0B, 0x7F, 0x0B]

theorem resolves_twice : twice.Resolves 2 (.x, ⟨14, .pixels (1 / 4), none, .deltaG⟩) :=
  ⟨[], _, [.rtgah, .rtgah], rfl, rfl,
    .spec List.mem_cons_self List.mem_cons_self (by decide +kernel)⟩

/-- The program is read and analyzed, and its hint is in neither phase. -/
theorem analyze_loses_twice : parse twiceBytes = .ok twice ∧
    twice.analyze = .ok ⟨some .empty, .empty⟩ ∧ ¬ twice.Keeps ⟨some .empty, .empty⟩ := by
  refine ⟨by decide +kernel, by decide +kernel, fun hkeeps => ?_⟩
  have hmem := (hkeeps.mem_entries _).mpr ⟨2, resolves_twice⟩
  exact absurd hmem List.not_mem_nil

end Program

end GlyphHints.Spark
