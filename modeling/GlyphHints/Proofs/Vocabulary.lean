import GlyphHints.Proofs.Packing
import GlyphHints.Proofs.RoundTrip

/-!
# What the encoder emits

The encoder never resets or advances nothing, resets no shift, and adds to the ppem by nybbles
only. It changes the delta base exactly if some ppem lies beyond the first window, and then it
raises it first. As these changes have no code, and everything else it emits has one, it is the
ppems alone that decide whether a stream can be coded.
-/
namespace GlyphHints

namespace Mask

theorem bits_pos (m : Mask) (h : m ≠ .empty) : 0 < m.bits := by
  rcases m with ⟨ppem, point, shift⟩
  revert ppem point shift
  decide

theorem bits_le_three (m : Mask) (h : m.shift = false) : m.bits ≤ 3 := by
  rcases m with ⟨ppem, point, shift⟩
  revert ppem point shift
  decide

end Mask

/-- Whether an instruction moves the window of ppems. -/
def Instruction.isBaseChange : Instruction → Bool
  | .misc .incrementDeltaBase | .misc .decrementDeltaBase => true
  | _ => false

/-- What an encoder emits. It moves the window of ppems only if it has to. -/
def Instruction.IsUsual (wide : Prop) : Instruction → Prop
  | .reset mask => mask ≠ .empty ∧ mask.shift = false
  | .setAutoIncrement mask => mask ≠ .empty
  | .misc .incrementDeltaBase | .misc .decrementDeltaBase => wide
  | .misc .addPpem32 | .misc .addPpem64 => False
  | _ => True

/-! ## Codes -/

namespace Instruction
variable {wide : Prop} {i : Instruction}

theorem code_of_nybble : ∀ n : Nybble, ∀ opcode ∈ [2, 3, 4, 5],
    (Symbol.fused opcode n.val).code?.isSome = true := by decide +kernel

theorem code_of_mask (mask : Mask) (h : mask ≠ .empty) :
    (Symbol.fused 1 mask.bits).code?.isSome = true ∧
      (mask.shift = false → (Symbol.fused 0 mask.bits).code?.isSome = true) := by
  rcases mask with ⟨ppem, point, shift⟩
  revert ppem point shift
  decide +kernel

/-- Only a change of the delta base has no code. -/
theorem exists_code (hi : i.IsUsual wide) (hbase : i.isBaseChange = false) :
    ∃ code, i.symbol.code? = some code := by
  refine Option.isSome_iff_exists.mp ?_
  cases i with
  | reset mask => exact (code_of_mask mask hi.1).2 hi.2
  | setAutoIncrement mask => exact (code_of_mask mask hi).1
  | setRepeat n => exact code_of_nybble n 2 (by decide)
  | addPpem n => exact code_of_nybble n 3 (by decide)
  | addPoint n => exact code_of_nybble n 4 (by decide)
  | setShift n => exact code_of_nybble n 5 (by decide)
  | misc m =>
    cases m with
    | incrementDeltaBase | decrementDeltaBase => contradiction
    | addPpem32 | addPpem64 => exact hi.elim
    | _ => decide +kernel
  | delta kind => cases kind <;> decide +kernel
  | rtgah | finish => decide +kernel

end Instruction

/-! ## Emitting -/

namespace Encoder
variable {e f : Encoder} {wide : Prop}

/-- Nothing unusual has been emitted. -/
def Usual (wide : Prop) (e : Encoder) : Prop := ∀ i ∈ e.emitted.toList, i.IsUsual wide

theorem Usual.emit {is : List Instruction} {s : Machine} (he : e.Usual wide)
    (his : ∀ i ∈ is, i.IsUsual wide) : (e.emit is s).Usual wide := by
  intro i hi
  rw [toList_emit] at hi
  exact (List.mem_append.mp hi).elim (he i) (his i)

theorem Usual.single {i : Instruction} {s : Machine} (he : e.Usual wide) (hi : i.IsUsual wide) :
    (e.emit [i] s).Usual wide := he.emit (List.forall_mem_singleton.mpr hi)

theorem usual_repeatSteps (repeats : Nat) : ∀ i ∈ repeatSteps repeats, i.IsUsual wide := by
  refine List.forall_mem_append.mpr ⟨?_, forall_mem_repeated trivial _⟩
  refine List.forall_mem_append.mpr ⟨?_, forall_mem_repeated trivial _⟩
  exact List.forall_mem_cons.mpr ⟨trivial, forall_mem_repeated trivial _⟩

theorem Usual.setDeltaShift (he : e.Usual wide) (d : Nat) : (e.setDeltaShift d).Usual wide :=
  he.emit (forall_mem_deltaShiftSteps trivial trivial _ _)

theorem Usual.setMask {mask : Mask} (he : e.Usual wide) (hmask : mask ≠ .empty) :
    (e.setMask mask).Usual wide := by
  unfold Encoder.setMask
  split_ifs
  · exact he
  · exact he.single hmask

/-- Steps between delta bases are taken only if there are several. -/
theorem Usual.setDeltaBase {b : Nat} (he : e.Usual wide) (hb : b ≠ e.state.deltaBase → wide)
    (h : e.setDeltaBase b = .ok f) : f.Usual wide := by
  obtain ⟨steps, hsteps, h⟩ := bind_eq_ok.mp h
  obtain rfl := Except.ok.inj h
  unfold Plan.baseSteps at hsteps
  dsimp only at hsteps
  split_ifs at hsteps
  obtain rfl := Except.ok.inj hsteps
  refine he.emit fun i hi => ?_
  have hne : b ≠ e.state.deltaBase := by
    rintro rfl
    simp [repeated] at hi
  rw [List.eq_of_mem_replicate hi]
  split_ifs <;> exact hb hne

theorem Usual.resetFor (he : e.Usual wide) (h : Hint) : (e.resetFor h).Usual wide := by
  dsimp only [Encoder.resetFor]
  split_ifs with hempty
  · exact he
  · refine he.single ⟨?_, rfl⟩
    simpa [Mask.isEmpty] using hempty

theorem Usual.matchShift {shift : Shift} (he : e.Usual wide) (h : e.matchShift shift = .ok f) :
    f.Usual wide := by
  unfold Encoder.matchShift at h
  split_ifs at h
  · exact Except.ok.inj h ▸ he
  · obtain ⟨d, -, h⟩ := bind_eq_ok.mp h
    obtain rfl := Except.ok.inj h
    exact (he.setDeltaShift d).single trivial

theorem Usual.matchPoint (he : e.Usual wide) (point : Option Nat) :
    (e.matchPoint point).Usual wide := by
  cases point with
  | none => exact he
  | some p => exact he.emit (forall_mem_pointSteps trivial trivial (fun _ => trivial) _)

theorem Usual.matchRepeat (he : e.Usual wide) (h : Hint) (next : Option Hint) :
    (e.matchRepeat h next).Usual wide := by
  unfold Encoder.matchRepeat
  split
  · exact he
  · exact he.emit (usual_repeatSteps _)

theorem Usual.addHint {h : Hint} {next : Option Hint} (he : e.Usual wide)
    (hadd : e.addHint h next = .ok f) : f.Usual wide := by
  obtain ⟨g, hg, hadd⟩ := bind_eq_ok.mp hadd
  obtain rfl := Except.ok.inj hadd
  have hppem : ((e.resetFor h).matchPpem h.ppem).Usual wide :=
    (he.resetFor h).emit (forall_mem_ppemSteps (fun _ => trivial) _)
  exact (((hppem.matchShift hg).matchPoint h.point).matchRepeat h next).single trivial

theorem Usual.addMarker {m : Marker} {following : Option Marker} (he : e.Usual wide)
    (hmask : ∀ mask, m = .mask mask → mask ≠ .empty)
    (hbase : ∀ b, m = .deltaBase b → b ≠ e.state.deltaBase → wide)
    (h : e.addMarker m following = .ok f) : f.Usual wide := by
  cases m with
  | mask mask => exact Except.ok.inj h ▸ he.setMask (hmask mask rfl)
  | deltaShift d => exact Except.ok.inj h ▸ he.setDeltaShift d
  | deltaBase b => exact he.setDeltaBase (hbase b rfl) h
  | hint x => exact he.addHint h

theorem Usual.enterAxis (he : e.Usual wide) (axis : Axis) : (e.enterAxis axis).Usual wide := by
  unfold Encoder.enterAxis
  split_ifs
  · exact he
  · refine he.single ?_
    cases axis <;> trivial

end Encoder

/-! ## Runs -/

/-- Some hint lies beyond the first window of ppems. -/
def GlyphPhases.IsWide (phases : GlyphPhases) : Prop := ∃ x ∈ phases.entries, 57 ≤ x.2.ppem

namespace Progress
variable {c d : Progress} {base : Base} {phases : GlyphPhases}

structure Usual (phases : GlyphPhases) (c : Progress) : Prop where
  encoder : c.encoder.Usual phases.IsWide
  masks : ∀ mask, .mask mask ∈ c.plan → mask ≠ .empty
  window : c.encoder.state.deltaBase ≠ initialDeltaBase → phases.IsWide

/-- A plan raises the delta base only for the sake of a hint. -/
theorem Steady.wide_of_deltaBase (hc : c.Steady base phases) {b : Nat} {plan : List Marker}
    (hplan : c.plan = .deltaBase b :: plan) (hb : b ≠ initialDeltaBase) : phases.IsWide := by
  obtain ⟨⟨k, rfl⟩, hhome | ⟨h, hh, hle⟩⟩ := (hc.planned.sound_cons hplan).1
  · exact absurd hhome hb
  · have hmem : h ∈ Plan.hints c.plan := by
      rw [hplan]
      exact hh
    refine ⟨_, hc.conserves.mem_entries hmem, ?_⟩
    have hk : k ≠ 0 := by
      rintro rfl
      exact hb rfl
    simp only [initialDeltaBase, deltaBaseSpan] at hle
    change 57 ≤ h.ppem
    omega

theorem Step.usual (h : c.Step d) (hc : c.Steady base phases) (hu : c.Usual phases) :
    d.Usual phases := by
  cases h with
  | @marker m plan f hplan hf =>
    have hmem : ∀ {n}, n ∈ plan → n ∈ c.plan := fun hn => hplan ▸ List.mem_cons_of_mem m hn
    refine ⟨hu.encoder.addMarker ?_ ?_ hf, fun mask hmask => hu.masks mask (hmem hmask), ?_⟩
    · rintro mask rfl
      exact hu.masks mask (hplan ▸ List.mem_cons_self)
    · rintro b rfl hne
      -- Either the base is raised, or it returns from where it has been raised to.
      by_cases hb : b = initialDeltaBase
      · exact hu.window fun hhome => hne (hb.trans hhome.symm)
      · exact hc.wide_of_deltaBase hplan hb
    · have hsettings : f.state.settings = c.encoder.state.settings.after m :=
        congrArg (·.2.2) (hc.planned.frame_addMarker hplan hf)
      have hbase : f.state.deltaBase = (c.encoder.state.settings.after m).deltaBase :=
        congrArg Settings.deltaBase hsettings
      change f.state.deltaBase ≠ _ → _
      rw [hbase]
      cases m with
      | deltaBase b => exact fun hb => hc.wide_of_deltaBase hplan hb
      | mask | deltaShift | hint => exact hu.window
  | @axis axis axes plan hplan _ hfor =>
    refine ⟨hu.encoder.enterAxis axis, fun mask hmask => Plan.mask_ne_empty hfor hmask, ?_⟩
    have hbase : (c.encoder.enterAxis axis).state.deltaBase = c.encoder.state.deltaBase :=
      congrArg Settings.deltaBase (c.encoder.settings_enterAxis axis)
    exact fun hne => hu.window (hbase ▸ hne)
  | rtgah _ _ _ =>
    exact ⟨hu.encoder.single trivial, fun mask hmask => absurd hmask List.not_mem_nil, hu.window⟩

theorem usual_of_reaches (h : (start (.start base) phases).Reaches c) : c.Usual phases := by
  induction h with
  | refl =>
    rcases phases with ⟨_ | pre, post⟩ <;>
      exact ⟨List.forall_mem_nil _, fun _ hmask => absurd hmask List.not_mem_nil,
        fun hne => absurd rfl hne⟩
  | tail hreaches hstep ih => exact hstep.usual (steady_of_reaches hreaches) ih

end Progress

/-! ## Where the delta base is raised -/

namespace Replay
variable {r s : Replay} {is : List Instruction} {i : Instruction}

theorem deltaBase_of_step (h : r.step i = .ok s) (hi : i.isBaseChange = false) :
    s.machine.deltaBase = r.machine.deltaBase := by
  have hmachine := machine_of_step h
  generalize s.machine = t at hmachine ⊢
  cases i with
  | misc m =>
    cases m with
    | incrementDeltaBase | decrementDeltaBase => contradiction
    | incrementDeltaShift | decrementDeltaShift =>
      simp only [Machine.step, Machine.stepMisc] at hmachine
      split_ifs at hmachine
      cases hmachine
      rfl
    | _ =>
      cases hmachine
      rfl
  | _ =>
    cases hmachine
    rfl

/-- A step records the hint of a delta instruction, or nothing. -/
theorem mem_entries_of_step (h : r.step i = .ok s) {x : Axis × Hint}
    (hx : x ∈ s.phases.entries) : x ∈ r.phases.entries ∨
      ∃ kind, i = .delta kind ∧ x.2.ppem = r.machine.ppem := by
  cases i with
  | delta kind =>
    obtain ⟨post, hpost, h⟩ := bind_eq_ok.mp h
    obtain ⟨machine, -, h⟩ := bind_eq_ok.mp h
    cases h
    rcases List.mem_append.mp hx with hx | hx
    · exact .inl (List.mem_append_left _ hx)
    · rcases (PhaseMap.mem_of_insert hpost).mp hx with rfl | hx
      · exact .inr ⟨kind, rfl, rfl⟩
      · exact .inl (List.mem_append_right _ hx)
  | rtgah =>
    obtain ⟨machine, -, h⟩ := bind_eq_ok.mp h
    cases h
    exact .inl (List.mem_append_right _ (by simpa [GlyphPhases.entries, PhaseMap.empty] using hx))
  | _ =>
    obtain ⟨machine, -, h⟩ := bind_eq_ok.mp h
    cases h
    exact .inl hx

/-- A hint beyond the first window is recorded only behind a rise of the delta base, and the
first change of the delta base is one. -/
theorem Run.exists_rise (h : Run r is s) (hbase : r.machine.deltaBase = initialDeltaBase) :
    (∃ before after, is = before ++ .misc .incrementDeltaBase :: after ∧
      ∀ i ∈ before, i.isBaseChange = false) ∨
    ∀ x ∈ s.phases.entries, x ∈ r.phases.entries ∨ x.2.ppem < 57 := by
  induction h with
  | done r => exact .inr fun x hx => .inl hx
  | @step r s t i is hi hs _ ih =>
    cases hchange : i.isBaseChange with
    | true =>
      cases i with
      | misc m =>
        cases m with
        | incrementDeltaBase => exact .inl ⟨[], is, rfl, List.forall_mem_nil _⟩
        | decrementDeltaBase =>
          obtain ⟨machine, hmachine, -⟩ := bind_eq_ok.mp hs
          simp [Machine.step, Machine.stepMisc, hbase, initialDeltaBase, deltaBaseSpan] at hmachine
        | _ => contradiction
      | _ => contradiction
    | false =>
      have hbase' := (deltaBase_of_step hs hchange).trans hbase
      rcases ih hbase' with ⟨before, after, rfl, hbefore⟩ | hall
      · exact .inl ⟨i :: before, after, rfl, List.forall_mem_cons.mpr ⟨hchange, hbefore⟩⟩
      · refine .inr fun x hx => ?_
        rcases hall x hx with hx | hx
        · rcases mem_entries_of_step hs hx with hx | ⟨kind, rfl, hppem⟩
          · exact .inl hx
          · have hhigh := hi.2.1
            rw [hbase] at hhigh
            exact .inr (hppem ▸ hhigh)
        · exact .inr hx

end Replay

/-! ## Packing -/

namespace NybbleStream
open Packing
variable {s : NybbleStream} {p : Prolog} {n : Nat} {gray : Bool} {e : Error}

/-- If every symbol has a code, there can only be too many of them. -/
theorem packHuffman_of_codes {symbols : List Symbol} (hp : s.prolog = .ok (p, n))
    (hsplit : Symbol.split (s.nybbles.drop n) = .ok symbols)
    (hcodes : ∀ t ∈ symbols, ∃ code, t.code? = some code)
    (h : s.packHuffman gray = .error e) : ∃ bytes, e = .streamTooLong bytes := by
  obtain ⟨codes, hmap⟩ := exists_mapM_eq_ok (f := codeOf) fun t ht =>
    (hcodes t ht).imp fun _ => codeOf_eq_ok_iff.mpr
  have hbits : s.codedBits = .ok (ofNybbles (s.nybbles.take n) ++ codes.flatten) :=
    codedBits_eq_ok_iff.mpr ⟨p, n, symbols, codes, hp, hsplit,
      (mapM_eq_ok_iff.mp hmap).imp fun _ _ => codeOf_eq_ok_iff.mp, rfl⟩
  rcases bind_eq_error.mp h with h | ⟨bits, -, h⟩
  · rw [hbits] at h
    contradiction
  · exact ⟨_, frame_eq_error h⟩

/-- The first symbol without a code is reported. -/
theorem packHuffman_of_missing {before after : List Symbol} {t : Symbol}
    (hp : s.prolog = .ok (p, n))
    (hsplit : Symbol.split (s.nybbles.drop n) = .ok (before ++ t :: after))
    (hbefore : ∀ u ∈ before, ∃ code, u.code? = some code) (ht : t.code? = none) (gray : Bool) :
    s.packHuffman gray = .error (.missingCode t) := by
  have hfails : codeOf t = .error (.missingCode t) := by
    rw [codeOf, ht]
  have hcoded : ∀ u ∈ before, ∃ code, codeOf u = .ok code := fun u hu =>
    (hbefore u hu).imp fun _ => codeOf_eq_ok_iff.mpr
  have hmap : (before ++ t :: after).mapM codeOf = .error (.missingCode t) :=
    mapM_eq_error hcoded hfails
  have hsymbols := symbols_eq_ok_iff.mpr ⟨p, n, hp, hsplit⟩
  refine bind_eq_error.mpr (.inl (bind_eq_error.mpr (.inr ⟨(p, n), hp, ?_⟩)))
  exact bind_eq_error.mpr (.inr ⟨_, hsymbols, bind_eq_error.mpr (.inl hmap)⟩)

end NybbleStream

namespace GlyphPhases
variable {phases : GlyphPhases} {stream : NybbleStream}

theorem TakesEach.count_rtgah {is : List Instruction} (h : phases.TakesEach is) :
    is.count .rtgah = if phases.pre.isSome then 1 else 0 := by
  unfold TakesEach at h
  split at h
  · rename_i hpre
    rw [List.count_eq_zero_of_not_mem h.1, hpre]
    rfl
  · rename_i pre hpre
    obtain ⟨before, after, rfl, hbefore, hafter, -⟩ := h
    rw [List.count_append, List.count_cons_self, List.count_eq_zero_of_not_mem hbefore,
      List.count_eq_zero_of_not_mem hafter, hpre]
    rfl

/-- RTGAH stands where a first phase begins, or by itself for a glyph without hints. -/
theorem count_rtgah_of_walk (hrange : phases.InRange) (h : phases.compress = .ok stream)
    {is : List Instruction} (hwalk : stream.walk = .ok ⟨is ++ [.finish], none⟩) :
    is.count .rtgah = if phases.pre.isSome || phases.isEmpty then 1 else 0 := by
  obtain ⟨js, hjs, htakes⟩ := compress_takesEach hrange h
  obtain rfl : is ++ [.finish] = js :=
    congrArg Walk.instructions (Except.ok.inj (hwalk.symm.trans hjs))
  have hcount := htakes.count_rtgah
  rw [List.count_append] at hcount
  cases hempty : phases.isEmpty with
  | true =>
    rw [reproduction_of_isEmpty hempty] at hcount
    simpa using hcount
  | false =>
    rw [reproduction_eq hempty] at hcount
    simpa using hcount

/-- The body of a stream is written in usual instructions, the last of which ends it, and runs
to what the glyph decodes to. -/
theorem exists_usual_body (hrange : phases.InRange) (h : phases.compress = .ok stream) :
    ∃ p n is machine, stream.prolog = .ok (p, n) ∧
      stream.nybbles.drop n = Instruction.writeAll (is ++ [.finish]) ∧ .finish ∉ is ∧
      (∀ i ∈ is, i.IsUsual phases.IsWide) ∧
      (Replay.start p.base).Run (is ++ [.finish]) ⟨machine, phases.reproduction⟩ := by
  cases hempty : phases.isEmpty with
  | true =>
    rw [compress_of_isEmpty hempty] at h
    cases h
    rw [reproduction_of_isEmpty hempty]
    exact ⟨⟨3, 0, 9, 0⟩, 5, [.rtgah], _, rfl, rfl, by decide, List.forall_mem_singleton.mpr trivial,
      .step rfl rfl (.single rfl rfl)⟩
  | false =>
    obtain ⟨p, fits, hp, c, hreaches, hfinished, rfl⟩ := compress_eq_ok hempty h
    have hbase := underlies_of_prolog hrange hempty hp
    rw [reproduction_eq hempty]
    refine ⟨p, p.nybbles.length, c.encoder.emitted.toList, c.encoder.state, ?_, ?_, ?_, ?_, ?_⟩
    · exact NybbleStream.prolog_ofInstructions fits
    · exact List.drop_left
    · exact (Progress.counted_of_reaches hbase hreaches).finish_not_mem
    · exact (Progress.usual_of_reaches hreaches).encoder
    · exact Progress.run_of_finished hbase hreaches hfinished

/-- The window of ppems moves in a glyph that is wide, and it rises first. -/
theorem exists_rise {p : Prolog} {is : List Instruction} {machine : Machine}
    (hwide : phases.IsWide)
    (hrun : (Replay.start p.base).Run is ⟨machine, phases.reproduction⟩) :
    ∃ before after, is = before ++ .misc .incrementDeltaBase :: after ∧
      ∀ i ∈ before, i.isBaseChange = false := by
  refine (hrun.exists_rise rfl).resolve_right fun hnarrow => ?_
  obtain ⟨x, hx, hppem⟩ := hwide
  have hne : phases.isEmpty = false := by
    refine Bool.eq_false_iff.mpr fun hempty => ?_
    rw [entries_eq_nil.mpr hempty] at hx
    exact absurd hx List.not_mem_nil
  rw [reproduction_eq hne] at hnarrow
  rcases hnarrow x hx with hx | hlt
  · exact absurd hx List.not_mem_nil
  · omega

/-- A glyph that is wide has no code, as raising the delta base has none; the stream of any
other is only refused for its length. -/
theorem packHuffman_of_compress (hrange : phases.InRange) (h : phases.compress = .ok stream)
    (gray : Bool) :
    (phases.IsWide → stream.packHuffman gray = .error (.missingCode (.fused 6 4))) ∧
      (¬ phases.IsWide → ∀ e, stream.packHuffman gray = .error e → ∃ n, e = .streamTooLong n) := by
  obtain ⟨p, n, is, machine, hp, hbody, hfinish, husual, hrun⟩ := exists_usual_body hrange h
  have hsplit := Instruction.split_writeAll hfinish []
  rw [List.append_nil, ← hbody] at hsplit
  have husual : ∀ i ∈ is ++ [.finish], i.IsUsual phases.IsWide :=
    List.forall_mem_append.mpr ⟨husual, List.forall_mem_singleton.mpr trivial⟩
  constructor
  · intro hwide
    obtain ⟨before, after, hrise, hbefore⟩ := exists_rise hwide hrun
    rw [hrise] at hsplit husual
    rw [List.map_append, List.map_cons] at hsplit
    refine NybbleStream.packHuffman_of_missing hp hsplit (fun t ht => ?_) (by decide +kernel) gray
    obtain ⟨i, hi, rfl⟩ := List.mem_map.mp ht
    exact Instruction.exists_code (husual i (List.mem_append_left _ hi)) (hbefore i hi)
  · intro hnarrow e he
    refine NybbleStream.packHuffman_of_codes hp hsplit (fun t ht => ?_) he
    obtain ⟨i, hi, rfl⟩ := List.mem_map.mp ht
    refine Instruction.exists_code (husual i hi) (Bool.eq_false_iff.mpr fun hchange => hnarrow ?_)
    have hiusual := husual i hi
    cases i with
    | misc m =>
      cases m with
      | incrementDeltaBase | decrementDeltaBase => exact hiusual
      | _ => contradiction
    | _ => contradiction

theorem encode_eq_compress (hrange : phases.InRange) (verify : Bool) :
    phases.encode verify = phases.compress := by
  cases verify with
  | true => exact encode_verified hrange
  | false => exact encode_unverified phases

/-- A stream is read as instructions to its last nybble, with RTGAH once where there is a first
phase or no hint at all, without resets of nothing or of the shift, masks of nothing, or large
steps of the ppem. It has a code exactly if no hint lies beyond the first window of ppems and
the code is not too long; otherwise it is the first rise of the delta base that has none. -/
theorem encode_vocabulary (hrange : phases.InRange) {verify : Bool}
    (h : phases.encode verify = .ok stream) :
    (∃ p n is, stream.prolog = .ok (p, n) ∧
      stream.nybbles.drop n = Instruction.writeAll (is ++ [.finish]) ∧
      stream.walk = .ok ⟨is ++ [.finish], none⟩ ∧ .finish ∉ is ∧
      is.count .rtgah = (if phases.pre.isSome || phases.isEmpty then 1 else 0) ∧
      (∀ mask, .reset mask ∈ is → 1 ≤ mask.bits ∧ mask.bits ≤ 3) ∧
      (∀ mask, .setAutoIncrement mask ∈ is → 1 ≤ mask.bits ∧ mask.bits ≤ 7) ∧
      ∀ m, .misc m ∈ is → m.operand ≠ 6 ∧ m.operand ≠ 7) ∧
    ∀ gray,
      ((∃ s, stream.packHuffman gray = .error (.missingCode s)) ↔
        ∃ x ∈ phases.entries, 57 ≤ x.2.ppem) ∧
      ∀ e, stream.packHuffman gray = .error e →
        e = .missingCode (.fused 6 4) ∨ ∃ n, e = .streamTooLong n := by
  rw [encode_eq_compress hrange] at h
  constructor
  · obtain ⟨p, n, is, machine, hp, hbody, hfinish, husual, hrun⟩ := exists_usual_body hrange h
    have hwalk := NybbleStream.walk_of_body hp hbody hfinish
    refine ⟨p, n, is, hp, hbody, hwalk, hfinish, count_rtgah_of_walk hrange h hwalk, ?_, ?_, ?_⟩
    · intro mask hmask
      obtain ⟨hne, hshift⟩ := husual _ hmask
      exact ⟨mask.bits_pos hne, mask.bits_le_three hshift⟩
    · intro mask hmask
      exact ⟨mask.bits_pos (husual _ hmask), mask.bits_le⟩
    · intro m hm
      have hmisc := husual _ hm
      cases m <;> simp_all [Misc.operand, Instruction.IsUsual]
  · intro gray
    obtain ⟨hwide, hnarrow⟩ := packHuffman_of_compress hrange h gray
    refine ⟨⟨?_, fun hx => ⟨_, hwide hx⟩⟩, fun e he => ?_⟩
    · rintro ⟨s, hs⟩
      by_contra hx
      obtain ⟨n, hn⟩ := hnarrow hx _ hs
      contradiction
    · by_cases hx : phases.IsWide
      · exact .inl (Except.error.inj (he.symm.trans (hwide hx)))
      · exact .inr (hnarrow hx e he)

theorem encode_vocabulary_sample :
    sample.encode false = .ok sampleStream ∧
    (∃ p n is, sampleStream.prolog = .ok (p, n) ∧
      sampleStream.nybbles.drop n = Instruction.writeAll (is ++ [.finish]) ∧
      sampleStream.walk = .ok ⟨is ++ [.finish], none⟩ ∧ .finish ∉ is ∧ is.count .rtgah = 1 ∧
      (∀ mask, .reset mask ∈ is → 1 ≤ mask.bits ∧ mask.bits ≤ 3) ∧
      (∀ mask, .setAutoIncrement mask ∈ is → 1 ≤ mask.bits ∧ mask.bits ≤ 7) ∧
      ∀ m, .misc m ∈ is → m.operand ≠ 6 ∧ m.operand ≠ 7) ∧
    ∀ gray, ∃ s, sampleStream.packHuffman gray = .error (.missingCode s) := by
  obtain ⟨hbody, hpack⟩ := encode_vocabulary inRange_sample encode_sample
  refine ⟨encode_sample, hbody, fun gray => (hpack gray).1.mpr ?_⟩
  exact ⟨(.y, ⟨70, .pixels (-1 / 2), none, .deltaG⟩), by decide +kernel, by decide⟩

end GlyphPhases

end GlyphHints
