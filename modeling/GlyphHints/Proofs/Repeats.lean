import GlyphHints.Proofs.BaseValues
import GlyphHints.Proofs.Landing

/-!
# Repeats that land

In front of a hint that another one follows the encoder sets the repeat to the smallest distance
that rises between them. So the machine advances to the next hint in one field, and beyond it in
none. Within a section the hints agree in all fields but the selected ones, so where a single one
is selected the machine is at the next hint already.
-/
namespace GlyphHints

def Misc.repeatAmount? : Misc → Option Nat
  | .addRepeat16 => some 16
  | .addRepeat32 => some 32
  | .addRepeat64 => some 64
  | _ => none

namespace Instruction
variable {is : List Instruction} {n : Nat}

/-- Whether an instruction sets the repeat or adds to it. -/
def isRepeat : Instruction → Bool
  | .setRepeat _ => true
  | .misc m => m.repeatAmount?.isSome
  | _ => false

/-- The repeat is set and then added to, up to a number. -/
inductive SetsRepeat : List Instruction → Nat → Prop
  | set (k : Nybble) : SetsRepeat [.setRepeat k] (k.val + 1)
  | add {is : List Instruction} {n amount : Nat} {m : Misc} : SetsRepeat is n →
      m.repeatAmount? = some amount → SetsRepeat (is ++ [.misc m]) (n + amount)

theorem SetsRepeat.repeated {m : Misc} {amount : Nat} (h : SetsRepeat is n)
    (hm : m.repeatAmount? = some amount) (times : Nat) :
    SetsRepeat (is ++ Encoder.repeated times m) (n + amount * times) := by
  induction times with
  | zero =>
    rw [Encoder.repeated, List.replicate_zero, List.append_nil]
    exact h
  | succ times ih =>
    rw [Encoder.repeated, List.replicate_succ', ← List.append_assoc, Nat.mul_succ,
      ← Nat.add_assoc]
    exact ih.add hm

theorem SetsRepeat.pos (h : SetsRepeat is n) : 0 < n := by
  induction h with
  | set k => exact k.val.succ_pos
  | add _ _ ih => exact Nat.add_pos_left ih _

end Instruction

namespace Encoder
open Instruction
variable {e f g : Encoder} {h x : Hint} {next : Option Hint} {n : Nat}

theorem setsRepeat_repeatSteps (hn : 0 < n) : SetsRepeat (repeatSteps n) n := by
  have hset : SetsRepeat [.setRepeat ⟨(n - 1) % 16, by omega⟩] ((n - 1) % 16 + 1) := .set _
  have hall := ((hset.repeated (m := .addRepeat64) rfl ((n - 1) / 16 / 4)).repeated
    (m := .addRepeat32) rfl ((n - 1) / 16 % 4 / 2)).repeated (m := .addRepeat16) rfl
    ((n - 1) / 16 % 2)
  have hsum : (n - 1) % 16 + 1 + 64 * ((n - 1) / 16 / 4) + 32 * ((n - 1) / 16 % 4 / 2) +
      16 * ((n - 1) / 16 % 2) = n := by omega
  rw [hsum] at hall
  exact hall

/-! ## On the way to a hint -/

/-- One encoder comes from another by emitting what leaves the repeat alone. -/
def Spares (e f : Encoder) : Prop :=
  ∃ is, f.emitted.toList = e.emitted.toList ++ is ∧ ∀ i ∈ is, i.isRepeat = false

theorem Spares.refl (e : Encoder) : e.Spares e :=
  ⟨[], (List.append_nil _).symm, List.forall_mem_nil _⟩

theorem Spares.trans (h : e.Spares f) (k : f.Spares g) : e.Spares g := by
  obtain ⟨is, hemitted, his⟩ := h
  obtain ⟨js, hemitted', hjs⟩ := k
  refine ⟨is ++ js, ?_, List.forall_mem_append.mpr ⟨his, hjs⟩⟩
  rw [hemitted', hemitted, List.append_assoc]

theorem spares_emit {is : List Instruction} {s : Machine} (his : ∀ i ∈ is, i.isRepeat = false) :
    e.Spares (e.emit is s) := ⟨is, e.toList_emit is s, his⟩

theorem spares_resetFor (e : Encoder) (h : Hint) : e.Spares (e.resetFor h) := by
  dsimp only [resetFor]
  split_ifs
  · exact .refl e
  · exact spares_emit (List.forall_mem_singleton.mpr rfl)

theorem spares_matchShift {shift : Shift} (h : e.matchShift shift = .ok f) : e.Spares f := by
  unfold matchShift at h
  split_ifs at h
  · exact Except.ok.inj h ▸ .refl e
  · obtain ⟨d, -, h⟩ := bind_eq_ok.mp h
    cases h
    have hturned : e.Spares (e.setDeltaShift d) :=
      spares_emit
        (forall_mem_deltaShiftSteps (P := fun i => i.isRepeat = false) rfl rfl _ _)
    exact hturned.trans (spares_emit (List.forall_mem_singleton.mpr rfl))

theorem spares_matchPoint (e : Encoder) (point : Option Nat) : e.Spares (e.matchPoint point) := by
  cases point with
  | none => exact .refl e
  | some p =>
    exact spares_emit
      (forall_mem_pointSteps (P := fun i => i.isRepeat = false) rfl rfl (fun _ => rfl) _)

theorem spares_reach (hrep : h.shift.isRepresentable e.state.deltaShift = true) :
    e.Spares (e.reach h) := by
  rw [← deltaShift_matchPpem e h] at hrep
  have hppem : e.Spares ((e.resetFor h).matchPpem h.ppem) :=
    (spares_resetFor e h).trans (spares_emit (forall_mem_ppemSteps (fun _ => rfl) _))
  exact (hppem.trans (spares_matchShift (matchShift_eq hrep))).trans (spares_matchPoint _ _)

/-- An encoder that is at a hint has nothing to emit on the way there. -/
theorem reach_of_at (hat : e.state.At h) : e.reach h = e := by
  have hreset : e.resetFor h = e := by
    have hpoint : h.point.any (· < e.state.point) = false := by
      cases hp : h.point with
      | none => rfl
      | some p => simp [hat.point p hp]
    simp only [resetFor, hat.ppem, hpoint, Nat.lt_irrefl, decide_false]
    rfl
  have hppem : e.matchPpem h.ppem = e := by
    rw [matchPpem, ← hat.ppem, Nat.sub_self]
    exact e.emit_nil
  have hshift : e.takeShift h.shift = e := by
    rw [takeShift, matchShift, if_pos hat.shift.symm]
    rfl
  rw [reach, hreset, hppem, hshift]
  cases hp : h.point with
  | none => rfl
  | some p =>
    rw [matchPoint, ← hat.point p hp, Nat.sub_self]
    exact e.emit_nil

theorem at_reach (hrep : h.shift.isRepresentable e.state.deltaShift = true) :
    (e.reach h).state.At h := by
  obtain ⟨point, hstate, hpoint⟩ := state_reach hrep
  rw [hstate]
  exact ⟨rfl, rfl, fun p hp => hpoint p hp⟩

/-! ## The repeat of a hint -/

theorem matchRepeat_of_none (hn : inferredRepeat? e.state h x = none) :
    e.matchRepeat h (some x) = e := by simp [matchRepeat, hn]

theorem matchRepeat_of_some (hn : inferredRepeat? e.state h x = some n) :
    e.matchRepeat h (some x) = e.emit (repeatSteps n) { e.state with repeats := n } := by
  simp [matchRepeat, hn]

/-- What is emitted for the repeat of a hint sets it, if it is anything. -/
theorem exists_matchRepeat (e : Encoder) (h : Hint) (next : Option Hint) : ∃ own,
    (e.matchRepeat h next).emitted.toList = e.emitted.toList ++ own ∧
      (own = [] ∨ SetsRepeat own (e.matchRepeat h next).state.repeats) := by
  cases next with
  | none => exact ⟨[], (List.append_nil _).symm, .inl rfl⟩
  | some x =>
    cases hn : inferredRepeat? e.state h x with
    | none =>
      rw [matchRepeat_of_none hn]
      exact ⟨[], (List.append_nil _).symm, .inl rfl⟩
    | some n =>
      rw [matchRepeat_of_some hn]
      have hsets := setsRepeat_repeatSteps (inferredRepeat?_eq_some hn).1
      exact ⟨repeatSteps n, e.toList_emit _ _, .inr hsets⟩

/-- From a hint that the encoder is at, the next one takes a repeat and its own instruction. -/
theorem addHint_of_at (hat : e.state.At h)
    (hrep : h.shift.isRepresentable e.state.deltaShift = true) (next : Option Hint) :
    ∃ f own, e.addHint h next = .ok f ∧
      f.emitted.toList = e.emitted.toList ++ (own ++ [.delta h.kind]) ∧
      (own = [] ∨ SetsRepeat own f.state.repeats) := by
  obtain ⟨own, hemitted, hown⟩ := exists_matchRepeat e h next
  have happroach : e.approach h next = e.matchRepeat h next := by rw [approach_eq, reach_of_at hat]
  refine ⟨_, own, addHint_eq hrep, ?_, ?_⟩
  · rw [toList_emit, happroach, hemitted, List.append_assoc]
  · rw [happroach]
    exact hown

theorem adjoins_reach (hx : e.state.Adjoins h x) : (e.reach h).state.Adjoins h x := by
  obtain ⟨point, hstate, -⟩ := state_reach hx.representable
  rw [hstate]
  exact ⟨hx.usable, hx.usable_next, hx.representable, hx.representable_next, hx.keyOf_eq,
    hx.ppem_le, hx.point_le⟩

theorem raises_reach (hrep : h.shift.isRepresentable e.state.deltaShift = true) (field : Field) :
    (e.reach h).state.Raises h x field ↔ e.state.Raises h x field := by
  obtain ⟨point, hstate, -⟩ := state_reach hrep
  rw [hstate]
  exact Iff.rfl

/-- Where no selected field rises, the repeat is left alone. -/
theorem addHint_of_level (hx : e.state.Adjoins h x)
    (hlevel : ∀ field, ¬ e.state.Raises h x field) :
    ∃ f approach, e.addHint h (some x) = .ok f ∧
      f.emitted.toList = e.emitted.toList ++ (approach ++ [.delta h.kind]) ∧
      (∀ i ∈ approach, i.isRepeat = false) ∧ f.state.repeats = e.state.repeats := by
  obtain ⟨approach, hemitted, hspared⟩ := spares_reach hx.representable
  have hnone : inferredRepeat? (e.reach h).state h x = none :=
    inferredRepeat?_eq_none_iff.mpr fun field hraises =>
      hlevel field ((raises_reach hx.representable field).mp hraises)
  have happroach : e.approach h (some x) = e.reach h := matchRepeat_of_none hnone
  obtain ⟨point, hstate, -⟩ := state_reach hx.representable
  refine ⟨_, approach, addHint_eq hx.representable, ?_, hspared, ?_⟩
  · rw [toList_emit, happroach, hemitted, List.append_assoc]
  · change (e.approach h (some x)).state.repeats = _
    rw [happroach, hstate]

/-- Where a selected field rises, the machine lands on the next hint in one field, and beyond it
in none. -/
theorem addHint_of_raises (hx : e.state.Adjoins h x)
    (hraises : ∃ field, e.state.Raises h x field) :
    ∃ f approach repeats, e.addHint h (some x) = .ok f ∧
      f.emitted.toList = e.emitted.toList ++ (approach ++ repeats ++ [.delta h.kind]) ∧
      (∀ i ∈ approach, i.isRepeat = false) ∧ SetsRepeat repeats f.state.repeats ∧
      (∀ field, e.state.Raises h x field → f.state.Within x field) ∧
      (∃ field, e.state.Raises h x field ∧ f.state.Attains x field) ∧
      ∀ field, (∀ other, e.state.autoIncrement.selects other = true → other = field) →
        f.state.At x := by
  obtain ⟨approach, hemitted, hspared⟩ := spares_reach hx.representable
  obtain ⟨point, hstate, -⟩ := state_reach hx.representable
  have hmask : (e.reach h).state.autoIncrement = e.state.autoIncrement := by rw [hstate]
  have hat := at_reach hx.representable
  have hadjoins := adjoins_reach hx
  cases hn : inferredRepeat? (e.reach h).state h x with
  | none =>
    obtain ⟨field, hraises⟩ := hraises
    have hnone := inferredRepeat?_eq_none_iff.mp hn field
    exact absurd ((raises_reach hx.representable field).mpr hraises) hnone
  | some n =>
    have happroach : e.approach h (some x) =
        (e.reach h).emit (repeatSteps n) { (e.reach h).state with repeats := n } :=
      matchRepeat_of_some hn
    -- The repeat is the only thing that has changed since the hint was reached.
    have hat' : ({ (e.reach h).state with repeats := n } : Machine).At h :=
      ⟨hat.ppem, hat.shift, hat.point⟩
    have hadjoins' : ({ (e.reach h).state with repeats := n } : Machine).Adjoins h x :=
      ⟨hx.usable, hx.usable_next, hadjoins.representable, hadjoins.representable_next,
        hadjoins.keyOf_eq, hx.ppem_le, hx.point_le⟩
    obtain ⟨hwithin, field, hfield, hattains⟩ := Machine.advance_least hat' hadjoins' hn
    have hsets := setsRepeat_repeatSteps (inferredRepeat?_eq_some hn).1
    refine ⟨_, approach, repeatSteps n, addHint_eq hx.representable, ?_, hspared, ?_, ?_,
      ⟨field, (raises_reach hx.representable field).mp hfield, ?_⟩, ?_⟩
    · rw [toList_emit, happroach, toList_emit, hemitted]
      simp only [List.append_assoc]
    · rw [happroach]
      exact hsets
    · intro other hother
      rw [happroach]
      exact hwithin other ((raises_reach hx.representable other).mpr hother)
    · rw [happroach]
      exact hattains
    · intro sole hsole
      rw [happroach]
      exact Machine.at_advance_of_sole hat' hadjoins' hn (hmask ▸ hsole)

end Encoder

/-! ## Runs -/

/-- The hints of a section agree in the fields that its mask leaves fixed. -/
def Section.Agrees (s : Section) : Prop :=
  ∀ a ∈ s.hints, ∀ b ∈ s.hints, s.mask.keyOf a = s.mask.keyOf b

/-- The coordinates of a glyph are 32-bit numbers. -/
def GlyphPhases.OfWords (phases : GlyphPhases) : Prop :=
  ∀ y ∈ phases.entries, y.2.ppem ≤ greatestWord ∧ ∀ p ∈ y.2.point, p ≤ greatestWord

/-- The mask in effect after a marker. -/
def Mask.after (mask : Mask) : Marker → Mask
  | .mask mask => mask
  | _ => mask

theorem Encoder.autoIncrement_addMarker {e f : Encoder} {home : Nat} {m : Marker}
    {rest : List Marker} (hadmits : e.state.settings.Admits home rest m)
    (hf : e.addMarker m rest.head? = .ok f) :
    f.state.autoIncrement = e.state.autoIncrement.after m := by
  cases m with
  | mask mask =>
    cases hf
    unfold setMask
    split_ifs with hsame
    · exact hsame
    · rfl
  | deltaShift d =>
    cases hf
    rfl
  | deltaBase b =>
    obtain ⟨steps, -, hf⟩ := bind_eq_ok.mp hf
    cases hf
    rfl
  | hint h =>
    rw [addMarker_hint, addHint_eq hadmits.representable] at hf
    cases hf
    obtain ⟨point, repeats, hstate, -⟩ :=
      state_approach hadmits.representable (rest.head?.bind Marker.hint?)
    have hmask := congrArg Machine.autoIncrement hstate
    exact hmask

namespace Progress
variable {c d : Progress} {base : Base} {phases : GlyphPhases}

/-- What is left of the present section, under the mask in effect, and the sections to come. -/
def sections (c : Progress) : List Section :=
  ⟨c.encoder.state.autoIncrement, Plan.leading c.plan⟩ :: Plan.sections c.plan

/-- Every section of the plan ahead is as its mask says. -/
def Keyed (c : Progress) : Prop := ∀ s ∈ c.sections, s.Agrees

theorem keyed_of_plan (hleading : Plan.leading c.plan = [])
    (h : ∀ s ∈ Plan.sections c.plan, s.Agrees) : c.Keyed := by
  apply List.forall_mem_cons.mpr ⟨?_, h⟩
  rw [hleading]
  exact fun a ha => absurd ha List.not_mem_nil

theorem Step.keyed (h : c.Step d) (hc : c.Planned) (hkeyed : c.Keyed) : d.Keyed := by
  cases h with
  | @marker m plan f hplan hf =>
    have hmask := Encoder.autoIncrement_addMarker (hc.sound_cons hplan).1 hf
    obtain ⟨hpresent, hlater⟩ := List.forall_mem_cons.mp hkeyed
    rw [hplan] at hpresent hlater
    cases m with
    | mask mask =>
      change ∀ s ∈ (⟨f.state.autoIncrement, Plan.leading plan⟩ :: Plan.sections plan : List Section),
        s.Agrees
      rw [hmask]
      exact hlater
    | deltaShift | deltaBase =>
      apply List.forall_mem_cons.mpr ⟨?_, hlater⟩
      rw [hmask]
      exact hpresent
    | hint h =>
      apply List.forall_mem_cons.mpr ⟨?_, hlater⟩
      rw [hmask]
      exact fun a ha b hb => hpresent a (List.mem_cons_of_mem h ha) b (List.mem_cons_of_mem h hb)
  | @axis axis axes plan _ _ hfor =>
    obtain ⟨hleading, hsections⟩ := Plan.sections_ofHints hfor
    apply keyed_of_plan hleading
    intro s hs a ha b hb
    change s ∈ Plan.sections plan at hs
    rw [hsections] at hs
    exact Section.keyOf_eq hs ha hb
  | rtgah => exact keyed_of_plan rfl fun s hs => absurd hs List.not_mem_nil

theorem keyed_of_reaches (h : (start (.start base) phases).Reaches c) : c.Keyed := by
  induction h with
  | refl =>
    rcases phases with ⟨_ | pre, post⟩ <;>
      exact keyed_of_plan rfl fun s hs => absurd hs List.not_mem_nil
  | tail hreaches hstep ih => exact hstep.keyed (steady_of_reaches hreaches).planned ih

/-- Two hints of a plan next to each other are hints that the machine may advance between. -/
theorem adjoins_of_reaches (hwords : phases.OfWords)
    (h : (start (.start base) phases).Reaches c) {t x : Hint} {rest : List Marker}
    (hplan : c.plan = .hint t :: .hint x :: rest) : c.encoder.state.Adjoins t x := by
  have hsteady := steady_of_reaches h
  have hsound := hsteady.planned.sound_cons hplan
  have hkeyed := (List.forall_mem_cons.mp (keyed_of_reaches h)).1
  rw [hplan] at hkeyed
  have ht : (c.encoder.state.axis, t) ∈ phases.entries :=
    hsteady.conserves.mem_entries (hplan ▸ List.mem_cons_self)
  have hx : (c.encoder.state.axis, x) ∈ phases.entries :=
    hsteady.conserves.mem_entries (hplan ▸ List.mem_cons_of_mem t List.mem_cons_self)
  exact {
    usable := Hint.isUsable_of_isValid (GlyphPhases.isValid_of_mem ht)
    usable_next := Hint.isUsable_of_isValid (GlyphPhases.isValid_of_mem hx)
    representable := hsound.1.representable
    representable_next := hsound.2.1.representable
    keyOf_eq := hkeyed t List.mem_cons_self x (List.mem_cons_of_mem t List.mem_cons_self)
    ppem_le := (hwords _ hx).1
    point_le := (hwords _ hx).2 }

/-- Of two hints next to each other in a plan, the first sets the repeat to the smallest distance
that rises in a selected field, and the machine lands on the second in such a field and beyond it
in none. Where none rises the repeat is left alone. Where one field alone is selected and rises,
the second hint takes nothing but a repeat of its own. -/
theorem repeat_lands (hwords : phases.OfWords) (h : (start (.start base) phases).Reaches c)
    {t x : Hint} {rest : List Marker} (hplan : c.plan = .hint t :: .hint x :: rest) :
    ∃ f approach repeats, c.encoder.addMarker (.hint t) (some (.hint x)) = .ok f ∧
      f.emitted.toList = c.encoder.emitted.toList ++ (approach ++ repeats ++ [.delta t.kind]) ∧
      (∀ i ∈ approach, i.isRepeat = false) ∧
      ((∃ field, c.encoder.state.Raises t x field) →
        Instruction.SetsRepeat repeats f.state.repeats ∧ 1 ≤ f.state.repeats ∧
        (∀ field, c.encoder.state.Raises t x field → f.state.Within x field) ∧
        ∃ field, c.encoder.state.Raises t x field ∧ f.state.Attains x field) ∧
      ((∀ field, ¬ c.encoder.state.Raises t x field) →
        repeats = [] ∧ f.state.repeats = c.encoder.state.repeats) ∧
      ∀ field, (∀ other, c.encoder.state.autoIncrement.selects other = true ↔ other = field) →
        c.encoder.state.Raises t x field →
        ∃ g own, f.addMarker (.hint x) rest.head? = .ok g ∧
          g.emitted.toList = f.emitted.toList ++ (own ++ [.delta x.kind]) ∧
          (own = [] ∨ Instruction.SetsRepeat own g.state.repeats) := by
  have hx := adjoins_of_reaches hwords h hplan
  by_cases hraises : ∃ field, c.encoder.state.Raises t x field
  · obtain ⟨f, approach, repeats, hf, hemitted, hspared, hsets, hwithin, hattains, hat⟩ :=
      Encoder.addHint_of_raises hx hraises
    refine ⟨f, approach, repeats, hf, hemitted, hspared,
      fun _ => ⟨hsets, hsets.pos, hwithin, hattains⟩, ?_, ?_⟩
    · intro hlevel
      obtain ⟨field, hfield⟩ := hraises
      exact absurd hfield (hlevel field)
    · intro field hsole _
      have hframe := (steady_of_reaches h).planned.frame_addMarker hplan hf
      have hshift : f.state.deltaShift = c.encoder.state.deltaShift :=
        congrArg (·.2.2.deltaShift) hframe
      have hrep : x.shift.isRepresentable f.state.deltaShift = true :=
        hshift ▸ hx.representable_next
      rw [Encoder.addMarker_hint]
      exact Encoder.addHint_of_at (hat field fun other => (hsole other).mp) hrep _
  · rw [not_exists] at hraises
    obtain ⟨f, approach, hf, hemitted, hspared, hrepeats⟩ :=
      Encoder.addHint_of_level hx hraises
    refine ⟨f, approach, [], hf, ?_, hspared, ?_, fun _ => ⟨rfl, hrepeats⟩, ?_⟩
    · rw [List.append_nil]
      exact hemitted
    · rintro ⟨field, hfield⟩
      exact absurd hfield (hraises field)
    · intro field _ hfield
      exact absurd hfield (hraises field)

/-- Two hints a hundred points apart. -/
def spread : GlyphPhases where
  pre := none
  post := (PhaseMap.empty.add .x ⟨12, .pixels (1 / 2), some 3, .deltaP⟩ (by decide +kernel)).add
    .x ⟨12, .pixels (1 / 2), some 103, .deltaP⟩ (by decide +kernel)

/-- A run in front of the first of them. -/
def spreadFront : Progress where
  encoder := ((Encoder.start ⟨.pixels (1 / 2), 12, 3⟩).enterAxis .x).setMask ⟨false, true, false⟩
  plan := [.hint ⟨12, .pixels (1 / 2), some 3, .deltaP⟩,
    .hint ⟨12, .pixels (1 / 2), some 103, .deltaP⟩]
  axes := []
  phase := spread.post
  later := none
  past := none
  recorded := []

theorem reaches_spreadFront :
    (start (.start ⟨.pixels (1 / 2), 12, 3⟩) spread).Reaches spreadFront := by
  have haxes : spread.post.axes = [.x] := by decide +kernel
  have hfor : (start (.start ⟨.pixels (1 / 2), 12, 3⟩) spread).planFor .x =
      .ok (.mask ⟨false, true, false⟩ :: spreadFront.plan) := by decide +kernel
  exact .tail (.single (.axis rfl haxes hfor)) (.marker (m := .mask ⟨false, true, false⟩) rfl rfl)

theorem repeat_lands_spread : spread.OfWords ∧
    (start (.start ⟨.pixels (1 / 2), 12, 3⟩) spread).Reaches spreadFront ∧
    ∃ f repeats g own, spreadFront.encoder.addMarker
        (.hint ⟨12, .pixels (1 / 2), some 3, .deltaP⟩)
        (some (.hint ⟨12, .pixels (1 / 2), some 103, .deltaP⟩)) = .ok f ∧
      Instruction.SetsRepeat repeats f.state.repeats ∧ f.state.point = 103 ∧
      f.addMarker (.hint ⟨12, .pixels (1 / 2), some 103, .deltaP⟩) none = .ok g ∧
      g.emitted.toList = f.emitted.toList ++ (own ++ [.delta .deltaP]) ∧
      (own = [] ∨ Instruction.SetsRepeat own g.state.repeats) := by
  have hwords : spread.OfWords := by
    unfold GlyphPhases.OfWords
    decide +kernel
  obtain ⟨f, approach, repeats, hf, -, -, hraised, -, hsole⟩ :=
    repeat_lands hwords reaches_spreadFront rfl
  have hpoint : ∀ other, spreadFront.encoder.state.autoIncrement.selects other = true ↔
      other = .point := by
    intro other
    cases other <;> decide
  have hraises : spreadFront.encoder.state.Raises ⟨12, .pixels (1 / 2), some 3, .deltaP⟩
      ⟨12, .pixels (1 / 2), some 103, .deltaP⟩ .point := ⟨rfl, 100, rfl, by decide⟩
  obtain ⟨hsets, -, -, field, hfield, hattains⟩ := hraised ⟨.point, hraises⟩
  obtain ⟨g, own, hg, hemitted, hown⟩ := hsole .point hpoint hraises
  obtain rfl := (hpoint field).mp hfield.1
  exact ⟨hwords, reaches_spreadFront, f, repeats, g, own, hf, hsets,
    (Option.some.inj hattains).symm, hg, hemitted, hown⟩

end Progress

end GlyphHints
