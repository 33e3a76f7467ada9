import GlyphHints.Proofs.Encodable
import GlyphHints.Proofs.SparkGrammar
import GlyphHints.Spark.Analysis

/-!
# The hints of a Spark program

What is read of a program fits: its delta shifts exist, its delta bases are bytes, its points
are words and stand with the kinds that take one. Under such settings every spec means a hint
that moves its point by at most eight steps of its delta shift, and no step by none, so a
program that can be read can be analyzed. No shift of it is out of an encoder's range.
-/
namespace GlyphHints

namespace Spark

/-! ## Reading -/

/-- A point is there exactly if the kind takes one, and it is a word. -/
structure Suits (kind : DeltaKind) (point : Option Nat) : Prop where
  fits : kind.fits point = true
  lt : ∀ p ∈ point, p < 65536

theorem suits_of_storesWord {kind : DeltaKind} {p : Nat} {bytes : List UInt8}
    (hkind : kind.takesPoint = true) (hp : StoresWord p bytes) : Suits kind (some p) := by
  cases hp with
  | word hlt => exact ⟨by rw [DeltaKind.fits, hkind]; rfl, fun _ hq => Option.some.inj hq ▸ hlt⟩

theorem InOrder.forall_mem {α : Type} {item : Layout α} {P : α → Prop} {l : List α}
    {bytes : List UInt8} (h : InOrder item l bytes) (hitem : ∀ a bytes, item a bytes → P a) :
    ∀ a ∈ l, P a := by
  induction h with
  | nil => exact List.forall_mem_nil P
  | cons ha _ ih => exact List.forall_mem_cons.mpr ⟨hitem _ _ ha, ih⟩

theorem StoresEntries.suits {kind : DeltaKind} {entries : List (Option Nat × List Spec)}
    {bytes : List UInt8} (h : StoresEntries kind entries bytes) :
    ∀ e ∈ entries, Suits kind e.1 := by
  cases h with
  | pairs hpairs =>
    obtain ⟨-, hitems⟩ := hpairs
    refine hitems.forall_mem fun e bytes he => ?_
    cases he with
    | pair hpoint => exact suits_of_storesWord rfl hpoint
  | shared hpoints =>
    obtain ⟨-, hitems⟩ := hpoints
    have hall := hitems.forall_mem fun p _ hp =>
      suits_of_storesWord (rfl : DeltaKind.deltaK.takesPoint = true) hp
    intro e he
    obtain ⟨p, hp, rfl⟩ := List.mem_map.mp he
    exact hall p hp
  | single hkind hpoint =>
    have htakes : kind.takesPoint = true := by
      revert kind
      decide
    exact List.forall_mem_singleton.mpr (suits_of_storesWord htakes hpoint)
  | everywhere =>
    exact List.forall_mem_singleton.mpr ⟨rfl, fun p hp => absurd hp (Option.not_mem_none p)⟩

/-- Operands that a program can hold. -/
def Instruction.Fits : Instruction → Prop
  | .setAxis _ | .rtgah => True
  | .setDeltaBase deltaBase => deltaBase < 256
  | .setDeltaShift deltaShift => deltaShift ≤ maxDeltaShift
  | .delta d => d.band ≤ 3 ∧ ∀ e ∈ d.entries, Suits d.kind e.1

theorem StoresInstruction.fits {i : Instruction} {bytes : List UInt8}
    (h : StoresInstruction i bytes) : i.Fits := by
  cases h with
  | axisY | axisX | rtgah => trivial
  | deltaBase hbyte =>
    cases hbyte with
    | byte hlt => exact hlt
  | deltaShift hle => exact hle
  | @delta kind place _ _ _ hplace hentries =>
    have hlength : (bandOpcodes kind).length = 3 := by cases kind <;> rfl
    have hlt := (List.getElem?_eq_some_iff.mp hplace).choose
    exact ⟨hlength ▸ hlt, hentries.suits⟩

theorem fits_of_parse {bytes : List UInt8} {p : Program} (h : Program.parse bytes = .ok p) :
    ∀ i ∈ p.instructions, i.Fits := by
  rcases Program.parse_eq_ok_iff.mp h with ⟨-, rfl⟩ | ⟨-, -, hbody⟩
  · exact List.forall_mem_singleton.mpr trivial
  · exact hbody.forall_mem fun i _ hi => hi.fits

/-! ## Specs -/

/-- Settings under which every spec has a meaning. -/
structure Context.Fits (c : Context) : Prop where
  deltaBase_lt : c.deltaBase < 256
  deltaShift_le : c.deltaShift ≤ maxDeltaShift

theorem Context.Fits.after {c : Context} {i : Instruction} (hc : c.Fits) (hi : i.Fits) :
    (c.after i).Fits := by
  cases i with
  | setDeltaBase b => exact ⟨hi, hc.deltaShift_le⟩
  | setDeltaShift d => exact ⟨hc.deltaBase_lt, hi⟩
  | setAxis | rtgah | delta => exact ⟨hc.deltaBase_lt, hc.deltaShift_le⟩

end Spark

/-- A hint such as specs mean. -/
structure Hint.OfSpec (h : Hint) : Prop where
  ppem_le : h.ppem ≤ 302
  point_lt : ∀ p ∈ h.point, p < 65536
  steps : ∃ (k : Int) (d : Nat), k ≠ 0 ∧ k.natAbs ≤ 8 ∧ d ≤ 6 ∧ h.shift = Shift.ofSteps k d

theorem Hint.OfSpec.inRange {h : Hint} (hh : h.OfSpec) : h.InRange := by
  constructor
  · have hle := hh.ppem_le
    omega
  · intro p hp
    have hlt := hh.point_lt p hp
    omega

namespace Spark

theorem Delta.ofSpec_of_mem {d : Delta} {c : Context} (hd : Instruction.Fits (.delta d))
    (hc : c.Fits) {h : Hint} (hh : h ∈ d.hints c) : h.isValid = true ∧ h.OfSpec := by
  obtain ⟨⟨point, specs⟩, he, hh⟩ := List.mem_flatMap.mp hh
  obtain ⟨spec, _, rfl⟩ := List.mem_map.mp hh
  obtain ⟨hfits, hlt⟩ := hd.2 _ he
  have hbyte := spec.byte.toNat_lt
  obtain ⟨k, hk, hle, hshift⟩ := Grain.exists_steps (spec.byte.toNat % 16) c.deltaShift (by omega)
  have hfold : (Grain.toShift ((spec.byte.toNat % 16 : Nat) : Int) c.deltaShift).foldZero =
      Shift.ofSteps k c.deltaShift := congrArg Shift.foldZero hshift
  refine ⟨?_, ?_, hlt, k, c.deltaShift, hk, hle, hc.deltaShift_le, hfold⟩
  · have husable := Shift.isUsable_ofSteps hk c.deltaShift
    rw [← hfold] at husable
    exact Bool.and_eq_true_iff.mpr ⟨husable, hfits⟩
  · have hbase := hc.deltaBase_lt
    have hband := hd.1
    show spec.byte.toNat / 16 + c.deltaBase + 16 * (d.band - 1) ≤ 302
    omega

end Spark

/-! ## Analyzing -/

theorem PhaseMap.exists_insertAll (m : PhaseMap) {entries : List (Axis × Hint)}
    (h : ∀ x ∈ entries, x.2.isValid = true) :
    ∃ n, m.insertAll entries = .ok n ∧ ∀ x ∈ n.entries, x ∈ m.entries ∨ x ∈ entries := by
  induction entries generalizing m with
  | nil => exact ⟨m, rfl, fun x hx => .inl hx⟩
  | cons e entries ih =>
    obtain ⟨hv, h⟩ := List.forall_mem_cons.mp h
    obtain ⟨n, hn, hmem⟩ := ih (m.add e.1 e.2 hv) h
    refine ⟨n, bind_eq_ok.mpr ⟨_, m.insert_of_isValid e.1 hv, hn⟩, fun x hx => ?_⟩
    rcases hmem x hx with hx | hx
    · rcases mem_add.mp hx with rfl | hx
      · exact .inr List.mem_cons_self
      · exact .inl hx
    · exact .inr (List.mem_cons_of_mem e hx)

namespace Spark

/-- What has been recorded under fitting settings. -/
structure Analysis.Sound (a : Analysis) : Prop where
  context : a.context.Fits
  entries : ∀ x ∈ a.phases.entries, x.2.OfSpec

theorem Analysis.Sound.step {a : Analysis} {i : Instruction} (ha : a.Sound) (hi : i.Fits) :
    ∃ b, a.step i = .ok b ∧ b.Sound := by
  have hcontext := ha.context.after hi
  cases i with
  | setAxis | setDeltaBase | setDeltaShift => exact ⟨_, rfl, hcontext, ha.entries⟩
  | rtgah =>
    refine ⟨_, rfl, hcontext, fun x hx => ha.entries x (List.mem_append_right _ ?_)⟩
    simpa [GlyphPhases.entries, PhaseMap.empty] using hx
  | delta d =>
    have hhints : ∀ x ∈ (d.hints a.context).map (a.context.axis, ·),
        x.2.isValid = true ∧ x.2.OfSpec := by
      intro x hx
      obtain ⟨h, hh, rfl⟩ := List.mem_map.mp hx
      exact Delta.ofSpec_of_mem hi ha.context hh
    obtain ⟨post, hpost, hmem⟩ := a.phases.post.exists_insertAll fun x hx => (hhints x hx).1
    refine ⟨_, bind_eq_ok.mpr ⟨post, hpost, rfl⟩, hcontext, fun x hx => ?_⟩
    rcases List.mem_append.mp hx with hx | hx
    · exact ha.entries x (List.mem_append_left _ hx)
    · rcases hmem x hx with hx | hx
      · exact ha.entries x (List.mem_append_right _ hx)
      · exact (hhints x hx).2

theorem Analysis.Sound.foldlM {a : Analysis} {is : List Instruction} (ha : a.Sound)
    (his : ∀ i ∈ is, i.Fits) : ∃ b, is.foldlM Analysis.step a = .ok b ∧ b.Sound := by
  induction is generalizing a with
  | nil => exact ⟨a, rfl, ha⟩
  | cons i is ih =>
    obtain ⟨hi, his⟩ := List.forall_mem_cons.mp his
    obtain ⟨b, hb, hsound⟩ := ha.step hi
    obtain ⟨c, hc, hlast⟩ := ih hsound his
    exact ⟨c, bind_eq_ok.mpr ⟨b, hb, hc⟩, hlast⟩

/-- A program that can be read records hints of its specs, and nothing else. -/
theorem Program.analyze_of_parse {bytes : List UInt8} {p : Program} (h : parse bytes = .ok p) :
    ∃ phases, p.analyze = .ok phases ∧ ∀ x ∈ phases.entries, x.2.OfSpec := by
  have hstart : Analysis.start.Sound :=
    ⟨⟨by decide, by decide⟩, fun x hx => absurd hx List.not_mem_nil⟩
  obtain ⟨a, ha, hsound⟩ := hstart.foldlM (fits_of_parse h)
  refine ⟨a.phases, ?_, hsound.entries⟩
  rw [analyze, ha]
  rfl

end Spark

end GlyphHints
