import GlyphHints.Proofs.Faults

/-!
# The two forms of a prolog

A base ppem below 24 takes one nybble and any other takes three, the first of which, 15, is no
short ppem. So the third nybble tells how long a prolog is, and only a base ppem that was written
in the long form without need is written otherwise than it was read.
-/
namespace GlyphHints
namespace Prolog

/-- The nybbles of a prolog in either form. -/
inductive Form : List Nat → Prolog → Prop
  | short {granularity grain ppem high low : Nat} :
      granularity ≤ maxDeltaShift → ppem ≠ longPpem →
      Form [granularity, grain, ppem, high, low]
        ⟨granularity, grain, minBasePpem + ppem, 16 * high + low⟩
  | long {granularity grain ppemHigh ppemLow high low : Nat} :
      granularity ≤ maxDeltaShift →
      Form [granularity, grain, longPpem, ppemHigh, ppemLow, high, low]
        ⟨granularity, grain, 16 * ppemHigh + ppemLow, 16 * high + low⟩

variable {values opening : List Nat} {p : Prolog} {n : Nat}

theorem Form.read (h : Form opening p) (rest : List Nat) :
    read (opening ++ rest) = .ok (p, opening.length) := by
  cases h with
  | short hg hppem => simp [Prolog.read, Nat.not_lt.mpr hg, hppem]
  | long hg => simp [Prolog.read, Nat.not_lt.mpr hg]

/-- What is read is a prolog in one of its forms, whatever follows it. -/
theorem read_eq_ok_iff : read values = .ok (p, n) ↔
    ∃ opening rest, values = opening ++ rest ∧ opening.length = n ∧ Form opening p := by
  constructor
  · intro h
    unfold Prolog.read at h
    split at h
    · contradiction
    · split_ifs at h with hg
      have hle := Nat.le_of_not_lt hg
      split at h
      · split_ifs at h with hppem
        · subst hppem
          split at h
          · cases h
            exact ⟨_, _, rfl, rfl, .long hle⟩
          · contradiction
        · split at h
          · cases h
            exact ⟨[_, _, _, _, _], _, rfl, rfl, .short hle hppem⟩
          · contradiction
      · contradiction
  · rintro ⟨opening, rest, rfl, rfl, hform⟩
    exact hform.read rest

/-! ## Writing -/

theorem length_nybbles (p : Prolog) :
    p.nybbles.length = if p.basePpem < minBasePpem + longPpem then 5 else 7 := by
  unfold nybbles
  split_ifs <;> rfl

theorem Form.fits (h : Form opening p) (hlt : ∀ v ∈ opening, v ≤ 15)
    (hppem : minBasePpem ≤ p.basePpem) : p.Fits := by
  cases h with
  | short hg _ | long hg =>
    simp only [List.forall_mem_cons] at hlt
    constructor <;> simp only [minBasePpem] at * <;> omega

/-- The short form is the one that is written, and so is the long form of what has no other. -/
theorem Form.nybbles_eq (h : Form opening p) (hlt : ∀ v ∈ opening, v ≤ 15)
    (hneeded : opening.length = 5 ∨ minBasePpem + longPpem ≤ p.basePpem) :
    p.nybbles = opening := by
  have hdigits {high low : Nat} (hlow : low ≤ 15) :
      (16 * high + low) / 16 = high ∧ (16 * high + low) % 16 = low := by omega
  cases h with
  | @short _ _ ppem _ _ _ hppem =>
    simp only [List.forall_mem_cons] at hlt
    obtain ⟨-, -, hle, -, hlow, -⟩ := hlt
    have hshort : ppem < longPpem := Nat.lt_of_le_of_ne hle hppem
    simp [nybbles, hshort, hdigits hlow]
  | long _ =>
    simp only [List.forall_mem_cons] at hlt
    obtain ⟨-, -, -, -, hppemLow, -, hlow, -⟩ := hlt
    have hlong := hneeded.resolve_left (by simp)
    simp [nybbles, Nat.not_lt.mpr hlong, hdigits hppemLow, hdigits hlow]

/-! ## Errors -/

theorem read_eq_invalidGranularity_iff {g : Nat} :
    read values = .error (.invalidGranularity g) ↔
      values.head? = some g ∧ maxDeltaShift < g := by
  constructor
  · intro h
    rcases read_eq_error h with he | ⟨g', hhead, hlarge, he⟩
    · contradiction
    · obtain rfl := Error.invalidGranularity.inj he
      exact ⟨hhead, hlarge⟩
  · rintro ⟨hhead, hlarge⟩
    obtain ⟨rest, rfl⟩ := List.head?_eq_some_iff.mp hhead
    exact read_of_lt hlarge rest

/-- A prolog is cut off if it is shorter than its form. -/
theorem read_eq_truncatedStream_iff : read values = .error .truncatedStream ↔
    (∀ g, values.head? = some g → g ≤ maxDeltaShift) ∧ values.length < span values := by
  constructor
  · intro h
    have hgran : ∀ g, values.head? = some g → g ≤ maxDeltaShift := by
      intro g hhead
      by_contra hlarge
      have hinvalid := read_eq_invalidGranularity_iff.mpr ⟨hhead, Nat.lt_of_not_le hlarge⟩
      cases h.symm.trans hinvalid
    refine ⟨hgran, ?_⟩
    by_contra hlong
    cases values with
    | nil => exact hlong (by decide)
    | cons g rest =>
      obtain ⟨p, hp⟩ := exists_read_eq_ok (hgran g rfl) (Nat.le_of_not_lt hlong)
      cases h.symm.trans hp
  · rintro ⟨hgran, hshort⟩
    cases h : read values with
    | ok r =>
      obtain ⟨hspan, hle⟩ := read_eq_ok (n := r.2) h
      omega
    | error e =>
      rcases read_eq_error h with rfl | ⟨g, hhead, hlarge, rfl⟩
      · rfl
      · exact absurd (hgran g hhead) (Nat.not_le.mpr hlarge)

/-- A prolog that fits is written in nybbles, five of them for a base ppem below 24 and seven
otherwise, and is read back from them whatever follows. What is read is written as it stood, unless
it was a base ppem below 24 in the long form, which is written in the short one. Reading fails only
for a granularity above 6 or for want of nybbles. -/
theorem forms_determined :
    (∀ p : Prolog, p.Fits →
      (∀ v ∈ p.nybbles, v ≤ 15) ∧ p.nybbles.length = (if p.basePpem < 24 then 5 else 7) ∧
      ∀ tail, read (p.nybbles ++ tail) = .ok (p, p.nybbles.length)) ∧
    (∀ values p n, (∀ v ∈ values, v ≤ 15) → read values = .ok (p, n) → 9 ≤ p.basePpem →
      (n = 5 ∨ n = 7) ∧ (n = 5 ∨ 24 ≤ p.basePpem → p.nybbles = values.take n) ∧
      (n = 7 → p.basePpem < 24 →
        p.nybbles.length = 5 ∧ ∀ tail, read (p.nybbles ++ tail) = .ok (p, 5))) ∧
    ∀ values,
      (∀ e, read values = .error e → e = .truncatedStream ∨ ∃ g, e = .invalidGranularity g) ∧
      (∀ g, read values = .error (.invalidGranularity g) ↔ values.head? = some g ∧ 6 < g) ∧
      (read values = .error .truncatedStream ↔ (∀ g, values.head? = some g → g ≤ 6) ∧
        values.length < if values[2]? = some 15 then 7 else 5) := by
  refine ⟨fun p hfits => ⟨?_, p.length_nybbles, read_nybbles hfits⟩, ?_, fun values => ⟨?_, ?_, ?_⟩⟩
  · exact fun v hv => Nat.le_of_lt_succ (hfits.nybbles_lt v hv)
  · intro values p n hlt hread hppem
    obtain ⟨opening, rest, rfl, rfl, hform⟩ := read_eq_ok_iff.mp hread
    have hopening : ∀ v ∈ opening, v ≤ 15 := fun v hv => hlt v (List.mem_append_left rest hv)
    have hlength : opening.length = 5 ∨ opening.length = 7 := by
      cases hform
      · exact .inl rfl
      · exact .inr rfl
    refine ⟨hlength, fun hneeded => ?_, fun _ hshort => ?_⟩
    · rw [List.take_left]
      exact hform.nybbles_eq hopening hneeded
    · have hfive : p.nybbles.length = 5 := p.length_nybbles.trans (if_pos hshort)
      have hagain := read_nybbles (hform.fits hopening hppem)
      rw [hfive] at hagain
      exact ⟨hfive, hagain⟩
  · intro e he
    rcases read_eq_error he with rfl | ⟨g, -, -, rfl⟩
    · exact .inl rfl
    · exact .inr ⟨g, rfl⟩
  · exact fun g => read_eq_invalidGranularity_iff
  · exact read_eq_truncatedStream_iff

/-- A base ppem of 20 in the long form, with a nybble behind the prolog. -/
def longTwenty : List Nat := [3, 8, 15, 1, 4, 0, 7, 12]

theorem forms_determined_longTwenty :
    (⟨3, 8, 20, 7⟩ : Prolog).Fits ∧ (∀ v ∈ longTwenty, v ≤ 15) ∧
      read longTwenty = .ok (⟨3, 8, 20, 7⟩, 7) ∧
      (⟨3, 8, 20, 7⟩ : Prolog).nybbles.length = 5 ∧
      read ((⟨3, 8, 20, 7⟩ : Prolog).nybbles ++ [12]) = .ok (⟨3, 8, 20, 7⟩, 5) ∧
      read [6, 15, 15, 15, 15, 0, 0] = .ok (⟨6, 15, 255, 0⟩, 7) ∧
      (⟨6, 15, 255, 0⟩ : Prolog).nybbles = [6, 15, 15, 15, 15, 0, 0] := by
  have hfits : (⟨3, 8, 20, 7⟩ : Prolog).Fits := by constructor <;> decide
  have hlt : ∀ v ∈ longTwenty, v ≤ 15 := by decide
  obtain ⟨hwrite, hread, -⟩ := forms_determined
  obtain ⟨-, -, hback⟩ := hwrite _ hfits
  obtain ⟨-, -, hlong⟩ := hread longTwenty _ _ hlt rfl (by decide)
  obtain ⟨hfive, -⟩ := hlong rfl (by decide)
  obtain ⟨-, hsame, -⟩ := hread [6, 15, 15, 15, 15, 0, 0] _ _ (by decide) rfl (by decide)
  exact ⟨hfits, hlt, rfl, hfive, hfive ▸ hback [12], rfl, hsame (.inr (by decide))⟩

end Prolog

end GlyphHints
