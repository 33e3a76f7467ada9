import Mathlib
import GlyphHints.Proofs.Plan

/-!
# Settings along a plan

A plan exists exactly if each of its hints has a delta shift that represents it. Otherwise the
hint that is reported is the first one without, in the order of the plan. Wherever a plan is
cut, the settings in front of the cut fit the marker behind it, and a change stands there for
the sake of a hint that only changes separate from it, or to return home at the very end.
-/
namespace GlyphHints

/-- Some delta shift represents the shift. -/
def Shift.IsGranular (shift : Shift) : Prop :=
  ∃ d ≤ maxDeltaShift, shift.isRepresentable d = true

instance (shift : Shift) : Decidable shift.IsGranular :=
  inferInstanceAs (Decidable (∃ d ≤ maxDeltaShift, shift.isRepresentable d = true))

theorem Shift.not_isGranular_iff {shift : Shift} :
    ¬ shift.IsGranular ↔ ∀ d ≤ maxDeltaShift, shift.isRepresentable d = false := by
  simp [IsGranular]

-- Nine pixels are a whole number of steps at every delta shift, and too many at each.
example : ¬ (Shift.pixels 9).IsGranular := by decide +kernel

namespace Plan
variable {home : Nat} {s : Settings} {a b before behind rest : List Marker} {m : Marker}

/-- Only changes stand in front of the next hint. -/
inductive LeadsToHint : List Marker → Prop where
  | hint {h : Hint} {rest : List Marker} : LeadsToHint (.hint h :: rest)
  | change {m : Marker} {rest : List Marker} :
      m.isChange = true → LeadsToHint rest → LeadsToHint (m :: rest)

theorem LeadsToHint.append (h : LeadsToHint rest) (more : List Marker) :
    LeadsToHint (rest ++ more) := by
  induction h with
  | hint => exact .hint
  | change hm _ ih => exact .change hm ih

theorem leadsToHint_of_changes {changes : List Marker} {h : Hint}
    (hm : ∀ m ∈ changes, m.isChange = true) : LeadsToHint (changes ++ [.hint h]) := by
  induction changes with
  | nil => exact .hint
  | cons m changes ih =>
    obtain ⟨hfirst, hrest⟩ := List.forall_mem_cons.mp hm
    exact .change hfirst (ih hrest)

/-- Every change leads to a hint, and one of the delta shift alters it. -/
def Purposeful : Settings → List Marker → Prop
  | _, [] => True
  | s, m :: rest => (∀ d, m = .deltaShift d → d ≠ s.deltaShift) ∧
      (m.isChange = true → LeadsToHint rest) ∧ Purposeful (s.after m) rest

theorem Purposeful.append (ha : Purposeful s a) (hb : Purposeful (s.afterAll a) b) :
    Purposeful s (a ++ b) := by
  induction a generalizing s with
  | nil => exact hb
  | cons m a ih =>
    obtain ⟨halters, hleads, hrest⟩ := ha
    exact ⟨halters, fun hm => (hleads hm).append b, ih hrest hb⟩

theorem purposeful_of_bases {bases : List Marker} {h : Hint}
    (hb : ∀ m ∈ bases, ∃ base, m = .deltaBase base) : Purposeful s (bases ++ [.hint h]) := by
  induction bases generalizing s with
  | nil => exact ⟨nofun, nofun, trivial⟩
  | cons m bases ih =>
    obtain ⟨⟨base, rfl⟩, hrest⟩ := List.forall_mem_cons.mp hb
    have hchange : ∀ m ∈ bases, m.isChange = true := by
      intro m hm
      obtain ⟨base, rfl⟩ := hrest m hm
      rfl
    exact ⟨nofun, fun _ => leadsToHint_of_changes hchange, ih hrest⟩

theorem purposeful_of_prepare {t : Settings} {h : Hint} {changes : List Marker}
    (hs : s.deltaShift ≤ maxDeltaShift) (hp : s.prepare home h = .ok (t, changes)) :
    Purposeful s (changes ++ [.hint h]) := by
  have hchange := Settings.isChange_of_prepare hp
  rw [Settings.prepare_eq] at hp
  obtain ⟨c, hc, hchanges⟩ := map_eq_ok.mp hp
  cases hchanges
  have hbases (s' : Settings) : Purposeful s' (((if h.ppem < s.deltaBase then
      [Marker.deltaBase home] else []) ++
        Settings.riseMarkers (s.lowBase home h) (s.rises home h)) ++ [.hint h]) := by
    apply purposeful_of_bases
    intro m hm
    rcases List.mem_append.mp hm with hm | hm
    · split_ifs at hm
      · exact ⟨home, List.mem_singleton.mp hm⟩
      · exact absurd hm List.not_mem_nil
    · obtain ⟨i, -, rfl⟩ := List.mem_map.mp hm
      exact ⟨_, rfl⟩
  unfold Settings.chooseShift at hc
  split_ifs at hc with hrep
  · cases hc
    exact hbases s
  · obtain ⟨d, hfit, rfl⟩ := map_eq_ok.mp hc
    -- The delta shift that was found represents the shift, the one in effect does not.
    have hne : d ≠ s.deltaShift := fun h => hrep (h ▸ (Shift.fit_eq_ok hs hfit).2)
    obtain ⟨-, hrest⟩ := List.forall_mem_cons.mp hchange
    refine ⟨?_, fun _ => leadsToHint_of_changes hrest, hbases _⟩
    intro e he
    cases he
    exact hne

/-! ## Cuts of a plan -/

theorem Sound.of_cut (h : Sound home s (before ++ m :: behind)) (hs : s.Valid home) :
    (s.afterAll before).Valid home ∧ (s.afterAll before).Admits home behind m := by
  induction before generalizing s with
  | nil => exact ⟨hs, h.1⟩
  | cons x before ih => exact ih h.2 (hs.after h.1)

theorem Purposeful.of_cut (h : Purposeful s (before ++ m :: behind)) :
    (∀ d, m = .deltaShift d → d ≠ (s.afterAll before).deltaShift) ∧
      (m.isChange = true → LeadsToHint behind) := by
  induction before generalizing s with
  | nil => exact ⟨h.1, h.2.1⟩
  | cons x before ih => exact ih h.2.2

/-- A plan that is followed by a return home is cut in front of that return or within the
plan. -/
theorem Purposeful.of_cut_closed (h : Purposeful s a)
    (hcut : a ++ [.deltaBase home] = before ++ m :: behind) :
    (∀ d, m = .deltaShift d → d ≠ (s.afterAll before).deltaShift) ∧
      (m.isChange = true → LeadsToHint behind ∨ behind = [] ∧ m = .deltaBase home) := by
  rcases List.eq_nil_or_concat behind with rfl | ⟨inner, last, rfl⟩
  · obtain ⟨-, hm⟩ := List.append_inj' hcut rfl
    cases hm
    exact ⟨nofun, fun _ => .inr ⟨rfl, rfl⟩⟩
  · rw [List.concat_eq_append] at hcut ⊢
    have hinner : a ++ [.deltaBase home] = (before ++ m :: inner) ++ [last] := by
      simpa using hcut
    obtain ⟨rfl, -⟩ := List.append_inj' hinner rfl
    obtain ⟨halters, hleads⟩ := h.of_cut
    exact ⟨halters, fun hm => .inl ((hleads hm).append [last])⟩

theorem baseSteps_isOk {first last : Nat} (hfirst : ∃ j, first = home + deltaBaseSpan * j)
    (hlast : ∃ k, last = home + deltaBaseSpan * k) : ∃ n, baseSteps first last = .ok n := by
  obtain ⟨j, rfl⟩ := hfirst
  obtain ⟨k, rfl⟩ := hlast
  unfold baseSteps deltaBaseSpan
  exact ⟨_, if_pos (by omega)⟩

end Plan

/-- What the settings in front of a marker and the plan behind it are to the marker. -/
def Settings.Suits (home : Nat) (s : Settings) (behind : List Marker) : Marker → Prop
  | .mask _ => True
  | .deltaShift d => d ≠ s.deltaShift ∧ d ≤ maxDeltaShift ∧ Plan.LeadsToHint behind
  | .deltaBase b => (∃ k, b = home + deltaBaseSpan * k) ∧
      (∃ n, Plan.baseSteps s.deltaBase b = .ok n) ∧
      (Plan.LeadsToHint behind ∨ behind = [] ∧ b = home)
  | .hint h => h.shift.isRepresentable s.deltaShift = true ∧
      (home ≤ h.ppem → s.deltaBase ≤ h.ppem ∧ h.ppem < s.deltaBase + deltaBaseSpan)

theorem Settings.suits_of_admits {home : Nat} {s : Settings} {behind : List Marker} {m : Marker}
    (hs : s.Valid home) (ha : s.Admits home behind m)
    (halters : ∀ d, m = .deltaShift d → d ≠ s.deltaShift)
    (hleads : m.isChange = true → Plan.LeadsToHint behind ∨ behind = [] ∧ m = .deltaBase home) :
    s.Suits home behind m := by
  cases m with
  | mask => trivial
  | hint h => exact ⟨ha.representable, ha.window⟩
  | deltaShift d =>
    refine ⟨halters d rfl, ha, (hleads rfl).resolve_right ?_⟩
    exact fun h => nomatch h.2
  | deltaBase b =>
    refine ⟨ha.1, Plan.baseSteps_isOk hs.spacing ha.1, (hleads rfl).imp_right ?_⟩
    exact fun h => ⟨h.1, Marker.deltaBase.inj h.2⟩

namespace Plan
variable {home d : Nat} {start : Settings} {list : List Hint} {plan : List Marker}

/-- The hints of a list in the order of its plan. -/
def order (list : List Hint) : List Hint :=
  (Section.ofHints (Ascending.ofList compare list)).flatMap (·.hints)

theorem mem_order {x : Hint} : x ∈ order list ↔ x ∈ list :=
  (sections_perm list).mem_iff.trans Ascending.mem_ofList

theorem hints_ofHints (h : ofHints list d home = .ok plan) : hints plan = order list := by
  obtain ⟨hleading, hsections⟩ := sections_ofHints h
  rw [hints_eq_leading_append, hleading, hsections]
  rfl

/-! ## Plans that exist -/

theorem Draft.purposeful_addHint {draft next : Draft} {h : Hint} (hstart : start.Valid home)
    (hd : draft.Plans home start) (hp : Purposeful start draft.markers.toList)
    (hadd : draft.addHint home h = .ok next) : Purposeful start next.markers.toList := by
  obtain ⟨changes, hprepare, hlist⟩ := Draft.addHint_eq_ok hadd
  have hvalid : draft.settings.Valid home := hd.settings ▸ hd.sound.valid hstart
  rw [hlist]
  apply hp.append
  rw [hd.settings]
  exact purposeful_of_prepare hvalid.deltaShift_le hprepare

/-- What a draft keeps as hints and sections are added to it. -/
def Draft.Suitable (home : Nat) (start : Settings) (draft : Draft) : Prop :=
  draft.Plans home start ∧ Purposeful start draft.markers.toList

theorem Draft.Suitable.addMask {draft : Draft} (h : draft.Suitable home start) (mask : Mask) :
    Draft.Suitable home start { draft with markers := draft.markers.push (.mask mask) } := by
  refine ⟨h.1.addMask mask, ?_⟩
  rw [Array.toList_push]
  exact h.2.append ⟨nofun, nofun, trivial⟩

theorem Draft.Suitable.addHints {draft next : Draft} {hs : List Hint} (hstart : start.Valid home)
    (h : draft.Suitable home start) (hadd : hs.foldlM (Draft.addHint home) draft = .ok next) :
    next.Suitable home start :=
  foldlM_preserves
    (fun _ _ _ _ hb hc => ⟨hb.1.addHint hstart hc, purposeful_addHint hstart hb.1 hb.2 hc⟩) h hadd

theorem Draft.Suitable.addSections {draft next : Draft} {sections : List Section}
    (hstart : start.Valid home) (h : draft.Suitable home start)
    (hadd : sections.foldlM (Draft.addSection home) draft = .ok next) :
    next.Suitable home start :=
  foldlM_preserves (fun _ _ s _ hb hc => (hb.addMask s.mask).addHints hstart hc) h hadd

theorem Draft.suitable_empty (home : Nat) (start : Settings) :
    Draft.Suitable home start ⟨start, #[]⟩ := ⟨⟨rfl, trivial⟩, trivial⟩

/-- The settings along a plan suit its markers. -/
theorem suits_of_ofHints (hd : d ≤ maxDeltaShift) (h : ofHints list d home = .ok plan)
    {before behind : List Marker} {m : Marker} (hcut : plan = before ++ m :: behind) :
    (Settings.afterAll ⟨d, home⟩ before).Valid home ∧
      (Settings.afterAll ⟨d, home⟩ before).Suits home behind m := by
  have hstart : (⟨d, home⟩ : Settings).Valid home := ⟨hd, 0, rfl⟩
  have hsound := (ofHints_eq_ok hd h).1
  obtain ⟨hvalid, hadmits⟩ := Sound.of_cut (hcut ▸ hsound) hstart
  obtain ⟨draft, hdraft, hplan⟩ := bind_eq_ok.mp h
  cases hplan
  have hpurposeful := ((Draft.suitable_empty home _).addSections hstart hdraft).2
  refine ⟨hvalid, ?_⟩
  split_ifs at hcut
  · rw [List.append_nil] at hcut
    obtain ⟨halters, hleads⟩ := Purposeful.of_cut (hcut ▸ hpurposeful)
    exact Settings.suits_of_admits hvalid hadmits halters fun hm => .inl (hleads hm)
  · obtain ⟨halters, hleads⟩ := hpurposeful.of_cut_closed hcut
    exact Settings.suits_of_admits hvalid hadmits halters hleads

/-! ## Plans that do not exist -/

theorem Sound.granular (h : Sound home start plan) (hstart : start.Valid home) {x : Hint}
    (hx : x ∈ hints plan) : x.shift.IsGranular := by
  obtain ⟨m, hm, hhint⟩ := List.mem_filterMap.mp hx
  obtain ⟨before, behind, rfl⟩ := List.append_of_mem hm
  obtain ⟨hvalid, hadmits⟩ := h.of_cut hstart
  cases m with
  | hint h =>
    cases hhint
    exact ⟨_, hvalid.deltaShift_le, hadmits.representable⟩
  | mask | deltaShift | deltaBase => contradiction

theorem Draft.hints_addHints {draft next : Draft} {hs : List Hint}
    (hadd : hs.foldlM (Draft.addHint home) draft = .ok next) :
    hints next.markers.toList = hints draft.markers.toList ++ hs := by
  refine foldlM_extends (P := fun d done =>
    hints d.markers.toList = hints draft.markers.toList ++ done) ?_ (List.append_nil _).symm hadd
  intro b c done h _ hb hc
  obtain ⟨changes, hlist, hhints, -⟩ := Draft.addHint_unmasked hc
  rw [hlist, hints_append, hb, hhints, List.append_assoc]

theorem Draft.hints_addSections {draft next : Draft} {sections : List Section}
    (hadd : sections.foldlM (Draft.addSection home) draft = .ok next) :
    hints next.markers.toList =
      hints draft.markers.toList ++ sections.flatMap (·.hints) := by
  have hnone : hints draft.markers.toList =
      hints draft.markers.toList ++ ([] : List Section).flatMap (·.hints) :=
    (List.append_nil _).symm
  refine foldlM_extends (P := fun d done => hints d.markers.toList =
    hints draft.markers.toList ++ done.flatMap (·.hints)) ?_ hnone hadd
  intro b c done s _ hb hc
  obtain ⟨chunk, hlist, hhints, -⟩ := Draft.addSection_unmasked hc
  rw [hlist, hints_append, hb]
  change _ ++ hints chunk = _
  rw [hhints, List.flatMap_append, List.append_assoc, List.flatMap_singleton]

/-- Planning stops at the first hint that no delta shift represents, and reports its shift. -/
theorem exists_of_ofHints_eq_error {e : Error} (hd : d ≤ maxDeltaShift)
    (h : ofHints list d home = .error e) : ∃ before x behind,
      order list = before ++ x :: behind ∧ (∀ y ∈ before, y.shift.IsGranular) ∧
      ¬ x.shift.IsGranular ∧ e = .granularityExhausted x.shift := by
  have hstart : (⟨d, home⟩ : Settings).Valid home := ⟨hd, 0, rfl⟩
  rcases bind_eq_error.mp h with h | ⟨_, _, hok⟩
  · obtain ⟨done, s, later, front, hsections, hfront, hs⟩ := exists_of_foldlM_eq_error h
    obtain ⟨hints, x, rest, draft, hhints, hdraft, hx⟩ := exists_of_foldlM_eq_error hs
    have hsuitable := (((Draft.suitable_empty home _).addSections hstart hfront).addMask
      s.mask).addHints hstart hdraft
    have hdone : Plan.hints draft.markers.toList = done.flatMap (·.hints) ++ hints := by
      have hempty : Plan.hints (#[] : Array Marker).toList = [] := rfl
      rw [Draft.hints_addHints hdraft, Array.toList_push, hints_append,
        Draft.hints_addSections hfront, hempty, List.nil_append]
      exact congrArg (· ++ hints) (List.append_nil _)
    refine ⟨done.flatMap (·.hints) ++ hints, x, rest ++ later.flatMap (·.hints), ?_, ?_, ?_⟩
    · simp [order, hsections, hhints]
    · intro y hy
      exact hsuitable.1.sound.granular hstart (hdone ▸ hy)
    · rcases bind_eq_error.mp hx with hp | ⟨_, _, hok⟩
      · obtain ⟨he, hnone⟩ := Settings.prepare_eq_error hp
        exact ⟨Shift.not_isGranular_iff.mpr hnone, he⟩
      · contradiction
  · contradiction

/-- A plan exists exactly if some delta shift represents each hint, and the first hint that none
represents is reported. Running down a plan from any home and any delta shift, the settings suit
every marker, and at the end the base is home again. -/
theorem ofHints_settles (hd : d ≤ maxDeltaShift) :
    ((∃ e, ofHints list d home = .error e) ↔ ∃ x ∈ list, ¬ x.shift.IsGranular) ∧
      (∀ e, ofHints list d home = .error e → ∃ before x behind,
        order list = before ++ x :: behind ∧ (∀ y ∈ before, y.shift.IsGranular) ∧
        ¬ x.shift.IsGranular ∧ e = .granularityExhausted x.shift) ∧
      ∀ plan, ofHints list d home = .ok plan → hints plan = order list ∧
        (∀ before m behind, plan = before ++ m :: behind →
          (Settings.afterAll ⟨d, home⟩ before).Valid home ∧
          (Settings.afterAll ⟨d, home⟩ before).Suits home behind m) ∧
        (Settings.afterAll ⟨d, home⟩ plan).deltaBase = home := by
  refine ⟨⟨?_, ?_⟩, fun e h => exists_of_ofHints_eq_error hd h, fun plan h => ?_⟩
  · rintro ⟨e, h⟩
    obtain ⟨before, x, behind, horder, -, hx, -⟩ := exists_of_ofHints_eq_error hd h
    have hmem : x ∈ order list := horder ▸ List.mem_append_right _ List.mem_cons_self
    exact ⟨x, mem_order.mp hmem, hx⟩
  · rintro ⟨x, hx, hnot⟩
    cases h : ofHints list d home with
    | error e => exact ⟨e, rfl⟩
    | ok plan =>
      have hmem : x ∈ hints plan := hints_ofHints h ▸ mem_order.mpr hx
      exact absurd ((ofHints_eq_ok hd h).1.granular ⟨hd, 0, rfl⟩ hmem) hnot
  · exact ⟨hints_ofHints h, fun _ _ _ hcut => suits_of_ofHints hd h hcut,
      (ofHints_eq_ok hd h).2.1⟩

def climbing : List Hint :=
  [⟨12, .pixels (1 / 64), none, .deltaG⟩, ⟨60, .pixels (1 / 2), some 3, .deltaP⟩,
    ⟨200, .pixels (1 / 2), some 3, .deltaL⟩, ⟨60, .pixels 5, some 4, .deltaL⟩,
    ⟨130, .pixels 5, some 4, .deltaP⟩, ⟨250, .pixels (1 / 32), some 7, .deltaS⟩]

/-- The base climbs and falls twice, the first time in one group, and is home at the end. -/
def climbingPlan : List Marker :=
  [.mask ⟨true, false, false⟩, .hint ⟨60, .pixels (1 / 2), some 3, .deltaP⟩,
    .deltaBase 105, .deltaBase 153, .hint ⟨200, .pixels (1 / 2), some 3, .deltaL⟩,
    .mask ⟨true, false, false⟩, .deltaShift 0, .deltaBase 57,
    .hint ⟨60, .pixels 5, some 4, .deltaL⟩, .deltaBase 105,
    .hint ⟨130, .pixels 5, some 4, .deltaP⟩,
    .mask .all, .deltaShift 6, .deltaBase 57, .hint ⟨12, .pixels (1 / 64), none, .deltaG⟩,
    .deltaBase 105, .deltaBase 153, .deltaBase 201, .deltaBase 249,
    .hint ⟨250, .pixels (1 / 32), some 7, .deltaS⟩, .deltaBase 57]

theorem ofHints_climbing : ofHints climbing 2 57 = .ok climbingPlan := by cbv

/-- A list of which two hints have no delta shift: one shift is too large, one never whole. -/
def unplannable : List Hint :=
  [⟨9, .pixels (1 / 3), some 3, .deltaP⟩, ⟨10, .pixels 9, none, .deltaG⟩] ++ climbing

theorem ofHints_unplannable :
    ofHints unplannable 2 57 = .error (.granularityExhausted (.pixels 9)) := by cbv

theorem ofHints_settles_climbing : 2 ≤ maxDeltaShift ∧
    ofHints unplannable 2 57 = .error (.granularityExhausted (.pixels 9)) ∧
    (∃ x ∈ unplannable, ¬ x.shift.IsGranular) ∧
    (∃ before x behind, order unplannable = before ++ x :: behind ∧
      (∀ y ∈ before, y.shift.IsGranular) ∧ ¬ x.shift.IsGranular ∧
      Error.granularityExhausted (.pixels 9) = .granularityExhausted x.shift) ∧
    ofHints climbing 2 57 = .ok climbingPlan ∧ hints climbingPlan = order climbing ∧
    (∀ before m behind, climbingPlan = before ++ m :: behind →
      (Settings.afterAll ⟨2, 57⟩ before).Valid 57 ∧
      (Settings.afterAll ⟨2, 57⟩ before).Suits 57 behind m) ∧
    (Settings.afterAll ⟨2, 57⟩ climbingPlan).deltaBase = 57 := by
  have hd : 2 ≤ maxDeltaShift := by decide
  obtain ⟨hfails, herror, -⟩ := @ofHints_settles 57 2 unplannable hd
  obtain ⟨-, -, hplans⟩ := @ofHints_settles 57 2 climbing hd
  exact ⟨hd, ofHints_unplannable, hfails.mp ⟨_, ofHints_unplannable⟩,
    herror _ ofHints_unplannable, ofHints_climbing, hplans _ ofHints_climbing⟩

end Plan

end GlyphHints
