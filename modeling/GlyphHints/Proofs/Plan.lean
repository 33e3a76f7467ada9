import GlyphHints.Plan
import GlyphHints.Proofs.Failing
import GlyphHints.Proofs.Granularity
import GlyphHints.Proofs.Sections

/-!
# Plans carry every hint in its window

Running down a plan, the settings change at the markers only. At each hint the delta shift in
effect can represent its shift, and the 48 ppems of the delta base in effect contain its ppem.
The base is always a whole number of windows above its home, never beyond a hint that is still
to come, and home again at the end. A plan fails only where a shift fits no delta shift.

A plan begins with a mask, and its masks divide it into the sections of its hints.
-/
namespace GlyphHints

namespace Marker

def hint? : Marker → Option Hint
  | .hint h => some h
  | _ => none

/-- Whether a marker changes the settings. -/
def isChange : Marker → Bool
  | .deltaShift _ | .deltaBase _ => true
  | _ => false

end Marker

namespace Plan

/-- The hints of a plan, in the order in which they are emitted. -/
def hints (plan : List Marker) : List Hint := plan.filterMap Marker.hint?

theorem hints_append (a b : List Marker) : hints (a ++ b) = hints a ++ hints b :=
  List.filterMap_append

end Plan

namespace Settings
variable {home : Nat}

/-- The settings after a marker. -/
def after (s : Settings) : Marker → Settings
  | .deltaShift deltaShift => { s with deltaShift }
  | .deltaBase deltaBase => { s with deltaBase }
  | _ => s

def afterAll (s : Settings) (plan : List Marker) : Settings := plan.foldl after s

/-- Settings that a plan from a given home passes through. -/
structure Valid (home : Nat) (s : Settings) : Prop where
  deltaShift_le : s.deltaShift ≤ maxDeltaShift
  spacing : ∃ k, s.deltaBase = home + deltaBaseSpan * k

/-- Settings that a hint can be emitted under. -/
structure Carries (home : Nat) (s : Settings) (h : Hint) : Prop where
  representable : h.shift.isRepresentable s.deltaShift = true
  window : home ≤ h.ppem → s.deltaBase ≤ h.ppem ∧ h.ppem < s.deltaBase + deltaBaseSpan

/-- What a marker must meet, given the settings before it and the plan behind it. -/
def Admits (home : Nat) (s : Settings) (rest : List Marker) : Marker → Prop
  | .mask _ => True
  | .deltaShift d => d ≤ maxDeltaShift
  | .deltaBase b =>
    (∃ k, b = home + deltaBaseSpan * k) ∧ (b = home ∨ ∃ h ∈ Plan.hints rest, b ≤ h.ppem)
  | .hint h => s.Carries home h

theorem Admits.append {s : Settings} {rest : List Marker} {m : Marker}
    (h : s.Admits home rest m) (more : List Marker) : s.Admits home (rest ++ more) m := by
  cases m with
  | deltaBase b =>
    refine ⟨h.1, h.2.imp_right ?_⟩
    rintro ⟨x, hx, hb⟩
    exact ⟨x, by rw [Plan.hints_append]; exact List.mem_append_left _ hx, hb⟩
  | mask | deltaShift | hint => exact h

theorem Valid.after {s : Settings} {rest : List Marker} {m : Marker} (hs : s.Valid home)
    (h : s.Admits home rest m) : (s.after m).Valid home := by
  cases m with
  | mask | hint => exact hs
  | deltaShift d => exact ⟨h, hs.spacing⟩
  | deltaBase b => exact ⟨hs.deltaShift_le, h.1⟩

end Settings

namespace Plan
variable {home : Nat} {s : Settings} {a b : List Marker}

/-- A plan whose markers are admitted one after another. -/
def Sound (home : Nat) : Settings → List Marker → Prop
  | _, [] => True
  | s, m :: rest => s.Admits home rest m ∧ Sound home (s.after m) rest

theorem Sound.append (ha : Sound home s a) (hb : Sound home (s.afterAll a) b) :
    Sound home s (a ++ b) := by
  induction a generalizing s with
  | nil => exact hb
  | cons m a ih => exact ⟨ha.1.append b, ih ha.2 hb⟩

theorem Sound.valid (h : Sound home s a) (hs : s.Valid home) : (s.afterAll a).Valid home := by
  induction a generalizing s with
  | nil => exact hs
  | cons m a ih => exact ih h.2 (hs.after h.1)

end Plan

/-! ## The changes in front of a hint -/

namespace Settings
variable {home : Nat} {s t : Settings} {h : Hint} {changes : List Marker}

/-- The base from which the windows up to a hint are counted. -/
def lowBase (home : Nat) (s : Settings) (h : Hint) : Nat :=
  if h.ppem < s.deltaBase then home else s.deltaBase

/-- The number of windows between that base and the hint. -/
def rises (home : Nat) (s : Settings) (h : Hint) : Nat :=
  (h.ppem - s.lowBase home h) / deltaBaseSpan

/-- The rises to a hint's window. -/
def riseMarkers (low count : Nat) : List Marker :=
  (List.range count).map fun i => Marker.deltaBase (low + deltaBaseSpan * (i + 1))

/-- A delta shift for a hint, and the marker that selects it. -/
def chooseShift (s : Settings) (h : Hint) : Except Error (Nat × List Marker) :=
  if h.shift.isRepresentable s.deltaShift then .ok (s.deltaShift, [])
  else (h.shift.fit s.deltaShift).map fun d => (d, [Marker.deltaShift d])

theorem prepare_eq (home : Nat) (s : Settings) (h : Hint) : s.prepare home h =
    (s.chooseShift h).map fun c =>
      (⟨c.1, s.lowBase home h + deltaBaseSpan * s.rises home h⟩,
        c.2 ++ ((if h.ppem < s.deltaBase then [Marker.deltaBase home] else []) ++
          riseMarkers (s.lowBase home h) (s.rises home h))) := by
  by_cases hrep : h.shift.isRepresentable s.deltaShift = true
  · simp only [prepare, chooseShift, hrep, if_true]
    rfl
  · simp only [prepare, chooseShift, hrep]
    cases h.shift.fit s.deltaShift <;> rfl

theorem afterAll_append (s : Settings) (a b : List Marker) :
    s.afterAll (a ++ b) = (s.afterAll a).afterAll b := List.foldl_append

theorem afterAll_riseMarkers (s : Settings) (n : Nat) :
    s.afterAll (riseMarkers s.deltaBase n) =
      { s with deltaBase := s.deltaBase + deltaBaseSpan * n } := by
  induction n with
  | zero => rfl
  | succ n ih =>
    rw [riseMarkers, List.range_succ, List.map_append, afterAll_append]
    change (s.afterAll (riseMarkers s.deltaBase n)).afterAll [_] = _
    rw [ih]
    rfl

theorem chooseShift_eq_ok {c : Nat × List Marker} (hs : s.deltaShift ≤ maxDeltaShift)
    (hc : s.chooseShift h = .ok c) : c.1 ≤ maxDeltaShift ∧ h.shift.isRepresentable c.1 = true ∧
      s.afterAll c.2 = { s with deltaShift := c.1 } ∧ ∀ m ∈ c.2, m = .deltaShift c.1 := by
  unfold chooseShift at hc
  split_ifs at hc with hrep
  · cases hc
    exact ⟨hs, hrep, rfl, by simp⟩
  · cases hfit : h.shift.fit s.deltaShift with
    | error e => simp [hfit, Except.map] at hc
    | ok d =>
      obtain rfl : (d, [Marker.deltaShift d]) = c := by simpa [hfit, Except.map] using hc
      obtain ⟨hle, hrep⟩ := Shift.fit_eq_ok hs hfit
      exact ⟨hle, hrep, rfl, by simp⟩

theorem chooseShift_eq_error {e : Error} (hc : s.chooseShift h = .error e) :
    e = .granularityExhausted h.shift ∧
      ∀ r ≤ maxDeltaShift, h.shift.isRepresentable r = false := by
  unfold chooseShift at hc
  split_ifs at hc
  cases hfit : h.shift.fit s.deltaShift with
  | ok d => simp [hfit, Except.map] at hc
  | error e' =>
    obtain rfl : e' = e := by simpa [hfit, Except.map] using hc
    exact Shift.fit_eq_error hfit

theorem rises_le (hlow : s.lowBase home h ≤ h.ppem) :
    s.lowBase home h + deltaBaseSpan * s.rises home h ≤ h.ppem ∧
      h.ppem < s.lowBase home h + deltaBaseSpan * s.rises home h + deltaBaseSpan := by
  have hmod := Nat.mod_lt (h.ppem - s.lowBase home h) (show 0 < deltaBaseSpan by decide)
  have hdiv := Nat.div_add_mod (h.ppem - s.lowBase home h) deltaBaseSpan
  unfold rises
  omega

theorem spacing_lowBase (hs : s.Valid home) :
    ∃ k, s.lowBase home h = home + deltaBaseSpan * k := by
  unfold lowBase
  split_ifs
  · exact ⟨0, rfl⟩
  · exact hs.spacing

theorem lowBase_le (s : Settings) (hh : home ≤ h.ppem) : s.lowBase home h ≤ h.ppem := by
  unfold lowBase
  split_ifs with hlt
  · exact hh
  · exact Nat.le_of_not_lt hlt

/-- A change made for the sake of a hint. -/
def LeadsTo (home : Nat) (h : Hint) : Marker → Prop
  | .deltaShift d => d ≤ maxDeltaShift
  | .deltaBase b => (∃ k, b = home + deltaBaseSpan * k) ∧ (b = home ∨ b ≤ h.ppem)
  | _ => False

theorem sound_of_leadsTo (hm : ∀ m ∈ changes, LeadsTo home h m)
    (hc : (s.afterAll changes).Carries home h) :
    Plan.Sound home s (changes ++ [.hint h]) := by
  induction changes generalizing s with
  | nil => exact ⟨hc, trivial⟩
  | cons m changes ih =>
    refine ⟨?_, ih (fun x hx => hm x (List.mem_cons_of_mem m hx)) hc⟩
    have hlead := hm m List.mem_cons_self
    cases m with
    | mask | hint => exact hlead.elim
    | deltaShift d => exact hlead
    | deltaBase b =>
      have hmem : h ∈ Plan.hints (changes ++ [.hint h]) := by
        rw [Plan.hints_append]
        exact List.mem_append_right _ List.mem_cons_self
      exact ⟨hlead.1, hlead.2.imp_right fun hb => ⟨h, hmem, hb⟩⟩

theorem riseMarkers_leadTo (hs : s.Valid home) {m : Marker}
    (hm : m ∈ riseMarkers (s.lowBase home h) (s.rises home h)) : LeadsTo home h m := by
  obtain ⟨i, hi, rfl⟩ := List.mem_map.mp hm
  obtain ⟨k, hk⟩ := spacing_lowBase (h := h) hs
  have hi := List.mem_range.mp hi
  refine ⟨⟨k + (i + 1), by rw [hk]; ring⟩, Or.inr ?_⟩
  have hmul : deltaBaseSpan * (i + 1) ≤ deltaBaseSpan * s.rises home h :=
    Nat.mul_le_mul_left _ hi
  have hle : deltaBaseSpan * s.rises home h ≤ h.ppem - s.lowBase home h := Nat.mul_div_le _ _
  have hpos : 0 < deltaBaseSpan * (i + 1) := Nat.mul_pos (by decide) i.succ_pos
  omega

/-- The changes of a hint end in settings that carry it. -/
theorem prepare_eq_ok (hs : s.Valid home) (hp : s.prepare home h = .ok (t, changes)) :
    s.afterAll changes = t ∧ t.Carries home h ∧ ∀ m ∈ changes, LeadsTo home h m := by
  rw [prepare_eq] at hp
  cases hc : s.chooseShift h with
  | error e => simp [hc, Except.map] at hp
  | ok c =>
    simp only [hc, Except.map, Except.ok.injEq, Prod.mk.injEq] at hp
    obtain ⟨rfl, rfl⟩ := hp
    obtain ⟨hle, hrep, hafter, hshift⟩ := chooseShift_eq_ok hs.deltaShift_le hc
    refine ⟨?_, ⟨hrep, fun hh => rises_le (lowBase_le s hh)⟩, ?_⟩
    · have hlow : ({ s with deltaShift := c.1 } : Settings).afterAll
          (if h.ppem < s.deltaBase then [Marker.deltaBase home] else []) =
          ⟨c.1, s.lowBase home h⟩ := by
        unfold lowBase
        split_ifs <;> rfl
      rw [afterAll_append, afterAll_append, hafter, hlow]
      exact afterAll_riseMarkers ⟨c.1, s.lowBase home h⟩ _
    · intro m hm
      rcases List.mem_append.mp hm with hm | hm
      · rw [hshift m hm]
        exact hle
      · rcases List.mem_append.mp hm with hm | hm
        · split_ifs at hm
          · rw [List.mem_singleton.mp hm]
            exact ⟨⟨0, rfl⟩, Or.inl rfl⟩
          · exact absurd hm List.not_mem_nil
        · exact riseMarkers_leadTo hs hm

theorem prepare_eq_error {e : Error} (hp : s.prepare home h = .error e) :
    e = .granularityExhausted h.shift ∧
      ∀ r ≤ maxDeltaShift, h.shift.isRepresentable r = false := by
  rw [prepare_eq] at hp
  cases hc : s.chooseShift h with
  | ok c => simp [hc, Except.map] at hp
  | error e' =>
    obtain rfl : e' = e := by simpa [hc, Except.map] using hp
    exact chooseShift_eq_error hc

theorem isChange_of_prepare (hp : s.prepare home h = .ok (t, changes)) :
    ∀ m ∈ changes, m.isChange = true := by
  rw [prepare_eq] at hp
  obtain ⟨c, hc, hchanges⟩ := map_eq_ok.mp hp
  cases hchanges
  intro m hm
  rcases List.mem_append.mp hm with hm | hm
  · unfold chooseShift at hc
    split_ifs at hc
    · cases hc
      exact absurd hm List.not_mem_nil
    · obtain ⟨d, -, rfl⟩ := map_eq_ok.mp hc
      exact List.mem_singleton.mp hm ▸ rfl
  · rcases List.mem_append.mp hm with hm | hm
    · split_ifs at hm
      · exact List.mem_singleton.mp hm ▸ rfl
      · exact absurd hm List.not_mem_nil
    · obtain ⟨i, -, rfl⟩ := List.mem_map.mp hm
      rfl

theorem hints_eq_nil_of_isChange (hm : ∀ m ∈ changes, m.isChange = true) :
    Plan.hints changes = [] := by
  apply List.filterMap_eq_nil_iff.mpr
  intro m hmem
  have := hm m hmem
  cases m with
  | hint => contradiction
  | _ => rfl

end Settings

/-! ## Sections -/

namespace Plan
variable {home : Nat} {a b : List Marker}

/-- The hints in front of the first mask. -/
def leading : List Marker → List Hint
  | [] => []
  | .mask _ :: _ => []
  | .hint h :: rest => h :: leading rest
  | _ :: rest => leading rest

/-- Each mask with the hints up to the next one. -/
def sections : List Marker → List Section
  | [] => []
  | .mask mask :: rest => ⟨mask, leading rest⟩ :: sections rest
  | _ :: rest => sections rest

theorem leading_append (hb : leading b = []) : leading (a ++ b) = leading a := by
  induction a with
  | nil => exact hb
  | cons m a ih => cases m <;> simp [leading, ih]

theorem sections_append (hb : leading b = []) : sections (a ++ b) = sections a ++ sections b := by
  induction a with
  | nil => rfl
  | cons m a ih => cases m <;> simp [sections, ih, leading_append hb]

theorem sections_of_unmasked (ha : ∀ mask, .mask mask ∉ a) :
    sections a = [] ∧ leading a = hints a := by
  induction a with
  | nil => exact ⟨rfl, rfl⟩
  | cons m a ih =>
    obtain ⟨hsections, hleading⟩ := ih fun mask hm => ha mask (List.mem_cons_of_mem m hm)
    cases m with
    | mask mask => exact absurd List.mem_cons_self (ha mask)
    | hint h => exact ⟨hsections, congrArg (h :: ·) hleading⟩
    | deltaShift | deltaBase => exact ⟨hsections, hleading⟩

theorem hints_eq_leading_append (plan : List Marker) :
    hints plan = leading plan ++ (sections plan).flatMap (·.hints) := by
  induction plan with
  | nil => rfl
  | cons m plan ih =>
    cases m with
    | mask | deltaShift | deltaBase => exact ih
    | hint h => exact congrArg (h :: ·) ih

/-- A hint that is not in front of the first mask has a mask in front of it. -/
theorem exists_mask_of_leading {x : Hint} (h : leading (a ++ .hint x :: b) = []) :
    ∃ mask, .mask mask ∈ a := by
  induction a with
  | nil => exact absurd h (List.cons_ne_nil _ _)
  | cons m a ih =>
    cases m with
    | mask mask => exact ⟨mask, List.mem_cons_self⟩
    | hint => exact absurd h (List.cons_ne_nil _ _)
    | deltaShift | deltaBase =>
      obtain ⟨mask, hmask⟩ := ih h
      exact ⟨mask, List.mem_cons_of_mem _ hmask⟩

theorem mem_sections_of_mask {mask : Mask} (h : .mask mask ∈ a) :
    ∃ s ∈ sections a, s.mask = mask := by
  induction a with
  | nil => exact absurd h List.not_mem_nil
  | cons m a ih =>
    cases h with
    | head => exact ⟨_, List.mem_cons_self, rfl⟩
    | tail _ h =>
      obtain ⟨s, hs, hmask⟩ := ih h
      cases m with
      | mask => exact ⟨s, List.mem_cons_of_mem _ hs, hmask⟩
      | deltaShift | deltaBase | hint => exact ⟨s, hs, hmask⟩

theorem Draft.addHint_eq_ok {draft next : Draft} {h : Hint}
    (hadd : draft.addHint home h = .ok next) :
    ∃ changes, draft.settings.prepare home h = .ok (next.settings, changes) ∧
      next.markers.toList = draft.markers.toList ++ (changes ++ [.hint h]) := by
  obtain ⟨⟨settings, changes⟩, hp, hnext⟩ := bind_eq_ok.mp hadd
  cases hnext
  exact ⟨changes, hp, by simp⟩

theorem Draft.addHint_unmasked {draft next : Draft} {h : Hint}
    (hadd : draft.addHint home h = .ok next) : ∃ changes,
      next.markers.toList = draft.markers.toList ++ (changes ++ [.hint h]) ∧
      hints (changes ++ [.hint h]) = [h] ∧ ∀ mask, .mask mask ∉ changes ++ [.hint h] := by
  obtain ⟨changes, hp, hlist⟩ := Draft.addHint_eq_ok hadd
  have hchange := Settings.isChange_of_prepare hp
  refine ⟨changes, hlist, ?_, fun mask hm => ?_⟩
  · rw [hints_append, Settings.hints_eq_nil_of_isChange hchange]
    rfl
  · rcases List.mem_append.mp hm with hm | hm
    · exact absurd (hchange _ hm) Bool.false_ne_true
    · simp at hm

/-- A section adds its mask and its hints, and no other mask. -/
theorem Draft.addSection_unmasked {draft next : Draft} {s : Section}
    (hadd : draft.addSection home s = .ok next) : ∃ chunk,
      next.markers.toList = draft.markers.toList ++ .mask s.mask :: chunk ∧
      hints chunk = s.hints ∧ ∀ mask, .mask mask ∉ chunk := by
  have hstart : ∃ chunk,
      (draft.markers.push (.mask s.mask)).toList =
        draft.markers.toList ++ .mask s.mask :: chunk ∧
      hints chunk = [] ∧ ∀ mask, .mask mask ∉ chunk :=
    ⟨[], Array.toList_push, rfl, fun mask => List.not_mem_nil⟩
  refine foldlM_extends (P := fun d done => ∃ chunk,
    d.markers.toList = draft.markers.toList ++ .mask s.mask :: chunk ∧
    hints chunk = done ∧ ∀ mask, .mask mask ∉ chunk) ?_ hstart hadd
  intro b c done h _ hb hc
  obtain ⟨chunk, hlist, rfl, hunmasked⟩ := hb
  obtain ⟨changes, hnext, hhints, hmore⟩ := Draft.addHint_unmasked hc
  refine ⟨chunk ++ (changes ++ [.hint h]), ?_, ?_, fun mask hm => ?_⟩
  · rw [hnext, hlist, List.append_assoc]
    rfl
  · rw [hints_append, hhints]
  · exact (List.mem_append.mp hm).elim (hunmasked mask) (hmore mask)

/-- A draft begins with a mask and consists of these sections. -/
structure Draft.Divides (draft : Draft) (done : List Section) : Prop where
  leading : Plan.leading draft.markers.toList = []
  sections : Plan.sections draft.markers.toList = done

theorem Draft.Divides.addSection {draft next : Draft} {done : List Section} {s : Section}
    (hd : draft.Divides done) (hadd : draft.addSection home s = .ok next) :
    next.Divides (done ++ [s]) := by
  obtain ⟨chunk, hlist, hhints, hunmasked⟩ := Draft.addSection_unmasked hadd
  obtain ⟨hsections, hleading⟩ := sections_of_unmasked hunmasked
  have hmask : Plan.leading (.mask s.mask :: chunk) = [] := rfl
  constructor
  · rw [hlist, leading_append hmask, hd.leading]
  · rw [hlist, sections_append hmask, hd.sections, Plan.sections, hsections, hleading, hhints]

/-- A plan begins with a mask, and its sections are those of its hints. -/
theorem sections_ofHints {list : List Hint} {d : Nat} {plan : List Marker}
    (h : ofHints list d home = .ok plan) :
    leading plan = [] ∧ sections plan = Section.ofHints (Ascending.ofList compare list) := by
  obtain ⟨draft, hdraft, hplan⟩ := bind_eq_ok.mp h
  cases hplan
  have hempty : Draft.Divides ⟨⟨d, home⟩, #[]⟩ [] := ⟨rfl, rfl⟩
  have hdivides := foldlM_extends (P := Draft.Divides)
    (fun _ _ _ _ _ hb hc => hb.addSection hc) hempty hdraft
  split_ifs
  · rw [List.append_nil]
    exact ⟨hdivides.leading, hdivides.sections⟩
  · have hclosing : leading [.deltaBase home] = [] := rfl
    rw [leading_append hclosing, sections_append hclosing]
    exact ⟨hdivides.leading, (List.append_nil _).trans hdivides.sections⟩

theorem sections_perm (list : List Hint) :
    ((Section.ofHints (Ascending.ofList compare list)).flatMap (·.hints)).Perm
      (Ascending.ofList compare list) := by
  have h : Ascending compare (Ascending.ofList compare list) := Ascending.ascending_ofList list
  exact Section.ofHints_perm h.nodup

/-- A plan holds each hint once. -/
theorem hints_perm {list : List Hint} {d : Nat} {plan : List Marker}
    (h : ofHints list d home = .ok plan) : (hints plan).Perm (Ascending.ofList compare list) := by
  obtain ⟨hleading, hsections⟩ := sections_ofHints h
  rw [hints_eq_leading_append, hleading, hsections]
  exact sections_perm list

theorem mask_ne_empty {list : List Hint} {d : Nat} {plan : List Marker} {mask : Mask}
    (h : ofHints list d home = .ok plan) (hmem : .mask mask ∈ plan) : mask ≠ .empty := by
  obtain ⟨s, hs, rfl⟩ := mem_sections_of_mask hmem
  rw [(sections_ofHints h).2] at hs
  exact Section.mask_ne_empty hs

end Plan

/-! ## Whole plans -/

namespace Plan
variable {home : Nat} {start : Settings}

/-- A draft whose markers are sound and lead to its settings. -/
structure Draft.Plans (home : Nat) (start : Settings) (draft : Draft) : Prop where
  settings : start.afterAll draft.markers.toList = draft.settings
  sound : Sound home start draft.markers.toList

theorem Draft.Plans.addHint {draft next : Draft} {h : Hint} (hstart : start.Valid home)
    (hd : draft.Plans home start) (hadd : draft.addHint home h = .ok next) :
    next.Plans home start := by
  obtain ⟨changes, hp, hlist⟩ := Draft.addHint_eq_ok hadd
  have hvalid : draft.settings.Valid home := hd.settings ▸ hd.sound.valid hstart
  obtain ⟨hafter, hcarries, hlead⟩ := Settings.prepare_eq_ok hvalid hp
  constructor
  · rw [hlist, Settings.afterAll_append, hd.settings, Settings.afterAll_append, hafter]
    rfl
  · rw [hlist]
    apply hd.sound.append
    rw [hd.settings]
    exact Settings.sound_of_leadsTo hlead (hafter ▸ hcarries)

theorem Draft.Plans.addMask {draft : Draft} (hd : draft.Plans home start) (mask : Mask) :
    Draft.Plans home start { draft with markers := draft.markers.push (.mask mask) } := by
  constructor
  · rw [Array.toList_push, Settings.afterAll_append, hd.settings]
    rfl
  · rw [Array.toList_push]
    exact hd.sound.append ⟨trivial, trivial⟩

theorem Draft.Plans.addSection {draft next : Draft} {s : Section} (hstart : start.Valid home)
    (hd : draft.Plans home start) (hadd : draft.addSection home s = .ok next) :
    next.Plans home start :=
  foldlM_preserves (fun _ _ _ _ hb hc => hb.addHint hstart hc) (hd.addMask s.mask) hadd

/-- A plan is sound from its start and returns to its home, and it holds each hint once. -/
theorem ofHints_eq_ok {list : List Hint} {d : Nat} {plan : List Marker}
    (hd : d ≤ maxDeltaShift) (h : ofHints list d home = .ok plan) :
    Sound home ⟨d, home⟩ plan ∧ ((⟨d, home⟩ : Settings).afterAll plan).deltaBase = home ∧
      (hints plan).Perm (Ascending.ofList compare list) := by
  have hperm := hints_perm h
  have hstart : (⟨d, home⟩ : Settings).Valid home := ⟨hd, 0, rfl⟩
  obtain ⟨draft, hdraft, hplan⟩ := bind_eq_ok.mp h
  have hempty : Draft.Plans home ⟨d, home⟩ ⟨⟨d, home⟩, #[]⟩ := ⟨rfl, trivial⟩
  have hplans := foldlM_preserves (fun _ _ _ _ hb hc => hb.addSection hstart hc) hempty hdraft
  cases hplan
  split_ifs at hperm ⊢ with hhome
  · rw [List.append_nil] at hperm ⊢
    exact ⟨hplans.sound, hplans.settings ▸ hhome, hperm⟩
  · refine ⟨hplans.sound.append ⟨⟨⟨0, rfl⟩, Or.inl rfl⟩, trivial⟩, ?_, hperm⟩
    rw [Settings.afterAll_append]
    rfl

theorem addSections_eq_error {draft : Draft} {sections : List Section} {e : Error}
    (h : sections.foldlM (Draft.addSection home) draft = .error e) :
    ∃ x ∈ sections.flatMap (·.hints), e = .granularityExhausted x.shift ∧
      ∀ r ≤ maxDeltaShift, x.shift.isRepresentable r = false := by
  obtain ⟨s, hs, d, hd⟩ := foldlM_eq_error h
  obtain ⟨x, hx, d', hadd⟩ := foldlM_eq_error hd
  unfold Draft.addHint at hadd
  rcases bind_eq_error.mp hadd with hp | ⟨_, _, hok⟩
  · exact ⟨x, List.mem_flatMap.mpr ⟨s, hs, hx⟩, Settings.prepare_eq_error hp⟩
  · contradiction

theorem ofHints_eq_error {list : List Hint} {d : Nat} {e : Error}
    (h : ofHints list d home = .error e) : ∃ x ∈ list, e = .granularityExhausted x.shift ∧
      ∀ r ≤ maxDeltaShift, x.shift.isRepresentable r = false := by
  have hperm := sections_perm list
  rcases bind_eq_error.mp h with h | ⟨_, _, hok⟩
  · obtain ⟨x, hx, hexhausted⟩ := addSections_eq_error h
    exact ⟨x, Ascending.mem_ofList.mp (hperm.mem_iff.mp hx), hexhausted⟩
  · contradiction

end Plan

end GlyphHints
