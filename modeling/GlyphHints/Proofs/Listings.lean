import GlyphHints.Proofs.GlyphFile
import GlyphHints.Proofs.GrainGrid
import GlyphHints.Proofs.Walkers

/-!
# Reading listings

The lines of a listing can be read back. The opening gives the base values, and behind its number
each instruction shows its nybbles. So a listing tells what its stream decodes to, though neither
the form of the prolog nor what follows the end of the program.
-/
namespace GlyphHints

/-! ## Parts of a line -/

theorem newline_not_mem_append {a b : String} (ha : '\n' ∉ a.toList) (hb : '\n' ∉ b.toList) :
    '\n' ∉ (a ++ b).toList := by
  rw [String.toList_append]
  exact List.not_mem_append ha hb

theorem newline_not_mem_toString (n : Nat) : '\n' ∉ (toString n).toList := by
  rw [Nat.toString_eq_repr, Nat.toList_repr]
  exact fun h => absurd (Nat.isDigit_of_mem_toDigits (by decide) (by decide) h) (by decide)

theorem ofDigitChars_toString (n : Nat) : Nat.ofDigitChars 10 (toString n).toList 0 = n := by
  rw [Nat.toString_eq_repr, Nat.toList_repr, Nat.ofDigitChars_ten_toDigits]

theorem eq_of_toString {m n : Nat} (h : toString m = toString n) : m = n := by
  rw [← ofDigitChars_toString m, h, ofDigitChars_toString]

theorem toList_sequenceText (n : Nat) : (sequenceText n).toList =
    List.replicate (3 - (Nat.toDigits 10 n).length) '0' ++ Nat.toDigits 10 n :=
  String.toList_ofList

theorem isDigit_of_mem_sequenceText (n : Nat) :
    ∀ c ∈ (sequenceText n).toList, c.isDigit = true := by
  intro c hc
  rw [toList_sequenceText, List.mem_append] at hc
  cases hc with
  | inl hc => rw [(List.mem_replicate.mp hc).2]; decide
  | inr hc => exact Nat.isDigit_of_mem_toDigits (by decide) (by decide) hc

theorem ofDigitChars_sequenceText (n : Nat) :
    Nat.ofDigitChars 10 (sequenceText n).toList 0 = n := by
  rw [toList_sequenceText, Nat.ofDigitChars_append, Nat.ofDigitChars_replicate_zero,
    Nat.mul_zero, Nat.ofDigitChars_ten_toDigits]

/-! ## Base shifts -/

namespace Shift
variable {q : Rat}

/-- The number that digits stand for which have a point among them. -/
def unsignedValue (text : List Char) : Rat :=
  let places := (text.dropWhile fun c => c ≠ '.').tail.length
  (Nat.ofDigitChars 10 (text.filter fun c => c ≠ '.') 0 : Rat) / (Nat.pow 10 places : Rat)

/-- The shift that a text without exponent stands for. -/
def ofPositional : List Char → Shift
  | '-' :: text => .pixels (-unsignedValue text)
  | text => .pixels (unsignedValue text)

/-- A shift can be read back from its place on a line. -/
structure IsLegible (shift : Shift) : Prop where
  ofPositional_eq : ofPositional (shift.text .decimal).toList = shift
  newline_not_mem : '\n' ∉ (shift.text .decimal).toList

theorem toList_text_pixels (hq : 0 < q) (style : NumberStyle) :
    ((pixels q).text style).toList = style.chars q := by
  simp [text, hq.ne', not_lt.mpr hq.le]

theorem toList_text_neg (hq : 0 < q) (style : NumberStyle) :
    ((pixels (-q)).text style).toList = '-' :: style.chars q := by
  have habs : (-q).abs = q := by rw [Rat.abs_neg, Rat.abs_of_nonneg hq.le]
  simp [text, hq.ne', hq, habs]

/-- Behind a minus the digits are those of the positive shift. -/
theorem isLegible_of_chars (hq : 0 < q)
    (hvalue : unsignedValue (NumberStyle.decimal.chars q) = q)
    (hminus : '-' ∉ NumberStyle.decimal.chars q) (hnewline : '\n' ∉ NumberStyle.decimal.chars q) :
    (pixels q).IsLegible ∧ (pixels (-q)).IsLegible := by
  refine ⟨⟨?_, ?_⟩, ⟨?_, ?_⟩⟩
  · rw [toList_text_pixels hq, ofPositional]
    · rw [hvalue]
    · intro text h
      exact hminus (h ▸ List.mem_cons_self)
  · rwa [toList_text_pixels hq]
  · rw [toList_text_neg hq, ofPositional, hvalue]
  · rw [toList_text_neg hq]
    exact List.not_mem_cons_of_ne_of_not_mem (by decide) hnewline

/-- The digits of the shifts that a nybble can hold. -/
theorem written_of_lt : ∀ d ≤ maxDeltaShift, ∀ k < 8,
    let text := NumberStyle.decimal.chars ((k + 1 : Nat) / (scale d : Rat))
    unsignedValue text = (k + 1 : Nat) / (scale d : Rat) ∧ '-' ∉ text ∧ '\n' ∉ text := by
  decide +kernel

theorem isLegible_ofSteps {n : Int} {d : Nat} (hd : d ≤ maxDeltaShift) (hn : n ≠ 0)
    (hle : n.natAbs ≤ 8) : (ofSteps n d).IsLegible := by
  obtain ⟨k, hk⟩ := Nat.exists_eq_succ_of_ne_zero (Int.natAbs_ne_zero.mpr hn)
  have hpos : (0 : Rat) < (k + 1 : Nat) / (scale d : Rat) := by
    rw [cast_scale]
    positivity
  obtain ⟨hvalue, hsign, hnewline⟩ := written_of_lt d hd k (by omega)
  obtain ⟨hplus, hminus⟩ := isLegible_of_chars hpos hvalue hsign hnewline
  unfold ofSteps
  rcases Int.natAbs_eq n with h | h
  · rw [h, hk, Int.cast_natCast]
    exact hplus
  · rw [h, hk, Int.cast_neg, Int.cast_natCast, neg_div]
    exact hminus

end Shift

theorem Grain.isLegible_toShift {grain d : Nat} (hgrain : grain < 16) (hd : d ≤ maxDeltaShift) :
    (toShift grain d).IsLegible := by
  obtain ⟨n, hn, hsteps, -, hshift⟩ := exists_toShift_eq (g := grain) (by omega) d
  rw [hshift]
  unfold ofSteps at hsteps
  exact Shift.isLegible_ofSteps hd hn (by split at hsteps <;> omega)

namespace Prolog
variable {p q : Prolog}

/-- The lines of a listing that state the base values. -/
def listed (p : Prolog) : List String :=
  ["Granularity is " ++ toString p.granularity, "Base shift is " ++ p.baseShift.text .decimal,
    "Base PPEM is " ++ toString p.basePpem, "Base point is " ++ toString p.basePoint]

theorem length_listed (p : Prolog) : p.listed.length = 4 := rfl

theorem newline_not_mem_listed (h : p.baseShift.IsLegible) :
    ∀ line ∈ p.listed, '\n' ∉ line.toList := by
  simp only [listed, List.forall_mem_cons]
  exact ⟨newline_not_mem_append (by decide) (newline_not_mem_toString _),
    newline_not_mem_append (by decide) h.newline_not_mem,
    newline_not_mem_append (by decide) (newline_not_mem_toString _),
    newline_not_mem_append (by decide) (newline_not_mem_toString _), by simp⟩

theorem eq_of_listed (hp : p.baseShift.IsLegible) (hq : q.baseShift.IsLegible)
    (h : p.listed = q.listed) : p.granularity = q.granularity ∧ p.baseShift = q.baseShift ∧
      p.basePpem = q.basePpem ∧ p.basePoint = q.basePoint := by
  simp only [listed, List.cons.injEq, and_true, String.append_right_inj] at h
  obtain ⟨hgranularity, hshift, hppem, hpoint⟩ := h
  refine ⟨eq_of_toString hgranularity, ?_, eq_of_toString hppem, eq_of_toString hpoint⟩
  rw [← hp.ofPositional_eq, hshift, hq.ofPositional_eq]

end Prolog

/-! ## Instructions -/

namespace Hex

/-- The digits of a list of nybbles. -/
def spelled (nybbles : List Nat) : List Char := nybbles.flatMap fun n => (upperHex n).toList

/-- A nybble is written as one digit. -/
theorem upperHex_of_lt : ∀ n < 16, (upperHex n).toList.length = 1 ∧
    Text.inked (upperHex n).toList = (upperHex n).toList ∧ '\n' ∉ (upperHex n).toList ∧
    (upperHex n).toList.mapM digit = .ok [n] := by
  decide +kernel

/-- The column of a nybble, blank if there is none. -/
def column : Option Nat → List Char
  | some n => (upperHex n).toList
  | none => [' ']

theorem column_spec {nybble : Option Nat} (h : ∀ n ∈ nybble, n < 16) :
    (column nybble).length = 1 ∧ Text.inked (column nybble) = spelled nybble.toList ∧
      '\n' ∉ column nybble := by
  cases nybble with
  | none => decide
  | some n =>
    obtain ⟨hlength, hinked, hnewline, -⟩ := upperHex_of_lt n (h n rfl)
    exact ⟨hlength, hinked.trans (List.append_nil _).symm, hnewline⟩

theorem mapM_digit_spelled {nybbles : List Nat} (h : ∀ n ∈ nybbles, n < 16) :
    (spelled nybbles).mapM digit = .ok nybbles := by
  induction nybbles with
  | nil => rfl
  | cons n nybbles ih =>
    obtain ⟨hn, hnybbles⟩ := List.forall_mem_cons.mp h
    rw [spelled, List.flatMap_cons, List.mapM_append, (upperHex_of_lt n hn).2.2.2, ← spelled,
      ih hnybbles]
    rfl

end Hex

theorem Mask.newline_not_mem_name (m : Mask) : '\n' ∉ m.name.toList := by
  obtain ⟨ppem, point, shift⟩ := m
  cases ppem <;> cases point <;> cases shift <;> decide +kernel

namespace Instruction

/-- What a listing shows in the columns of opcode and operand. -/
def columns (i : Instruction) : List Char :=
  Hex.column (some i.opcode) ++ ' ' :: Hex.column i.operand?

theorem toList_line (number : Nat) (i : Instruction) : (i.line number).toList =
    (sequenceText number).toList ++
      ' ' :: ' ' :: (i.columns ++ ' ' :: ' ' :: ' ' :: i.text.toList) := by
  unfold line columns Hex.column
  cases i.operand? <;> simp

theorem columns_spec (i : Instruction) : i.columns.length = 3 ∧
    Text.inked i.columns = Hex.spelled i.nybbles ∧ '\n' ∉ i.columns := by
  have hopcode : ∀ n ∈ some i.opcode, n < 16 := fun n hn =>
    i.nybbles_lt n (Option.some.inj hn ▸ List.mem_cons_self)
  have hoperand : ∀ n ∈ i.operand?, n < 16 := fun n hn =>
    i.nybbles_lt n (List.mem_cons_of_mem _ (Option.mem_toList.mpr hn))
  obtain ⟨hlength, hinked, hnewline⟩ := Hex.column_spec hopcode
  obtain ⟨hlength', hinked', hnewline'⟩ := Hex.column_spec hoperand
  have hblank : Text.inked [' '] = [] := by decide
  refine ⟨by simp [columns, hlength, hlength'], ?_, by simp [columns, hnewline, hnewline']⟩
  have hcolumns : i.columns = Hex.column (some i.opcode) ++ [' '] ++ Hex.column i.operand? := by
    simp [columns]
  rw [hcolumns, Text.inked_append, Text.inked_append, hinked, hinked', hblank]
  simp [Hex.spelled, nybbles]

/-- No instruction begins as another does. -/
theorem eq_of_nybbles_append {i j : Instruction} {rest more : List Nat}
    (h : i.nybbles ++ rest = j.nybbles ++ more) : i = j ∧ rest = more := by
  have hread := congrArg read h
  rw [read_nybbles, read_nybbles] at hread
  exact Prod.mk.inj (Except.ok.inj hread)

theorem writeAll_injective : Function.Injective writeAll := by
  intro is
  induction is with
  | nil =>
    intro js h
    cases js with
    | nil => rfl
    | cons j js => simp [writeAll, nybbles] at h
  | cons i is ih =>
    intro js h
    cases js with
    | nil => simp [writeAll, nybbles] at h
    | cons j js =>
      rw [writeAll_cons, writeAll_cons] at h
      obtain ⟨rfl, hrest⟩ := eq_of_nybbles_append h
      rw [ih hrest]

theorem newline_not_mem_text (i : Instruction) : '\n' ∉ i.text.toList := by
  cases i with
  | reset mask | setAutoIncrement mask =>
    exact newline_not_mem_append (by decide) mask.newline_not_mem_name
  | setRepeat n | addPpem n | addPoint n | setShift n =>
    exact newline_not_mem_append (by decide) (newline_not_mem_toString _)
  | misc m => cases m <;> decide +kernel
  | delta kind => cases kind <;> decide +kernel
  | rtgah | finish => decide +kernel

theorem newline_not_mem_line (number : Nat) (i : Instruction) :
    '\n' ∉ (i.line number).toList := by
  have hnumber : '\n' ∉ (sequenceText number).toList :=
    fun h => absurd (isDigit_of_mem_sequenceText number _ h) (by decide)
  simp [toList_line, hnumber, i.columns_spec.2.2, i.newline_not_mem_text]

end Instruction

namespace Listing

/-- The number that a line begins with. -/
def number (line : List Char) : Nat := Nat.ofDigitChars 10 (line.takeWhile Char.isDigit) 0

/-- The digits of the three columns that stand behind the number of a line and two blanks. -/
def digits (line : List Char) : List Char :=
  Text.inked (((line.dropWhile Char.isDigit).drop 2).take 3)

theorem number_line (k : Nat) (i : Instruction) : number (i.line k).toList = k := by
  rw [number, Instruction.toList_line, List.takeWhile_append_of_pos (isDigit_of_mem_sequenceText k),
    List.takeWhile_cons_of_neg (by decide), List.append_nil, ofDigitChars_sequenceText]

theorem digits_line (k : Nat) (i : Instruction) :
    digits (i.line k).toList = Hex.spelled i.nybbles := by
  obtain ⟨hlength, hinked, -⟩ := i.columns_spec
  rw [digits, Instruction.toList_line, List.dropWhile_append_of_pos (isDigit_of_mem_sequenceText k),
    List.dropWhile_cons_of_neg (by decide), List.drop_succ_cons, List.drop_succ_cons,
    List.drop_zero, ← hlength, List.take_left, hinked]

/-- The lines of instructions one after the other. -/
def linesOf (is : List Instruction) : List (List Char) :=
  (is.mapIdx Instruction.line).map String.toList

theorem linesOf_eq (is : List Instruction) :
    linesOf is = is.zipIdx.map fun e => (e.1.line e.2).toList := by
  rw [linesOf, List.mapIdx_eq_zipIdx_map, List.map_map]
  rfl

/-- The lines are numbered from zero. -/
theorem map_number_linesOf (is : List Instruction) :
    (linesOf is).map number = List.range is.length := by
  rw [linesOf_eq, List.map_map]
  simp only [Function.comp_def, number_line]
  rw [List.zipIdx_map_snd, List.range_eq_range']

theorem flatMap_digits_linesOf (is : List Instruction) :
    (linesOf is).flatMap digits = Hex.spelled (Instruction.writeAll is) := calc
  (linesOf is).flatMap digits = is.zipIdx.flatMap fun e => Hex.spelled e.1.nybbles := by
    rw [linesOf_eq, List.flatMap_map]
    simp only [digits_line]
  _ = (is.zipIdx.map Prod.fst).flatMap fun i => Hex.spelled i.nybbles := by
    rw [List.flatMap_map]
  _ = Hex.spelled (Instruction.writeAll is) := by
    rw [List.zipIdx_map_fst, Hex.spelled, Instruction.writeAll, List.flatMap_assoc]
    rfl

theorem mapM_digits_linesOf (is : List Instruction) :
    ((linesOf is).flatMap digits).mapM Hex.digit = .ok (Instruction.writeAll is) := by
  rw [flatMap_digits_linesOf]
  exact Hex.mapM_digit_spelled Instruction.writeAll_lt

/-- The digits on their lines tell the instructions of a program. -/
theorem linesOf_injective : Function.Injective linesOf := by
  intro is js h
  have hnybbles := mapM_digits_linesOf is
  rw [h, mapM_digits_linesOf] at hnybbles
  exact Instruction.writeAll_injective (Except.ok.inj hnybbles).symm

end Listing

/-! ## Streams -/

namespace NybbleStream
variable {s t : NybbleStream} {p q : Prolog} {m n : Nat} {is : List Instruction} {text : String}

theorem isLegible_baseShift (hp : s.prolog = .ok (p, n)) : p.baseShift.IsLegible := by
  obtain ⟨hgranularity, hgrain⟩ := Prolog.base_of_read s.nybbles_lt hp
  exact Grain.isLegible_toShift hgrain hgranularity

/-- The lines of a listing without their ends. -/
def shownLines (s : NybbleStream) (p : Prolog) (is : List Instruction) : List (List Char) :=
  p.listed.map String.toList ++ Listing.linesOf is ++
    [("Total bytes = " ++ toString s.packedLength).toList]

theorem newline_not_mem_shownLines (h : p.baseShift.IsLegible) :
    ∀ line ∈ s.shownLines p is, '\n' ∉ line := by
  simp only [shownLines, Listing.linesOf_eq, List.forall_mem_append, List.forall_mem_map,
    List.forall_mem_singleton]
  exact ⟨⟨Prolog.newline_not_mem_listed h, fun e _ => e.1.newline_not_mem_line e.2⟩,
    newline_not_mem_append (by decide) (newline_not_mem_toString _)⟩

theorem listing_eq (hp : s.prolog = .ok (p, n)) (hwalk : s.walk = .ok ⟨is, none⟩) :
    s.listing = .ok (String.ofList ((s.shownLines p is).flatMap (· ++ ['\n']))) := by
  have hlines : s.listingLines = .ok (p.listed ++ is.mapIdx Instruction.line ++
      ["Total bytes = " ++ toString s.packedLength]) := by
    rw [listingLines, hp, hwalk]
    rfl
  rw [listing, hlines]
  refine congrArg Except.ok (String.toList_inj.mp ?_)
  rw [String.toList_ofList, String.toList_join, shownLines, Listing.linesOf]
  simp [List.flatMap_map]

/-- Behind the last line feed there is an empty line. -/
theorem lines_listing (hp : s.prolog = .ok (p, n)) (hwalk : s.walk = .ok ⟨is, none⟩)
    (h : s.listing = .ok text) : Text.lines text.toList = s.shownLines p is ++ [[]] := by
  rw [listing_eq hp hwalk] at h
  rw [← Except.ok.inj h, String.toList_ofList]
  exact Text.lines_flatMap (newline_not_mem_shownLines (isLegible_baseShift hp))

theorem eq_of_shownLines {js : List Instruction}
    (h : s.shownLines p is ++ [[]] = t.shownLines q js ++ [[]]) :
    p.listed = q.listed ∧ is = js := by
  have hfront : p.listed.map String.toList ++ Listing.linesOf is =
      q.listed.map String.toList ++ Listing.linesOf js :=
    List.append_inj_left' (List.append_cancel_right h) (by rw [List.length_singleton,
      List.length_singleton])
  -- The opening has as many lines for either prolog, so it comes off whole.
  have hlength : (p.listed.map String.toList).length = (q.listed.map String.toList).length := by
    rw [List.length_map, List.length_map, p.length_listed, q.length_listed]
  obtain ⟨hlisted, hlines⟩ := List.append_inj hfront hlength
  have hinjective : Function.Injective String.toList := fun _ _ => String.toList_inj.mp
  exact ⟨hinjective.list_map hlisted, Listing.linesOf_injective hlines⟩

theorem decode_congr (hp : s.prolog = .ok (p, n)) (hq : t.prolog = .ok (q, m))
    (hbase : p.base = q.base) (hwalk : s.walk = t.walk) : s.decode = t.decode := by
  rw [decode, decode, hp, hq, hwalk]
  simp only [bind, Except.bind, hbase]

/-- A stream is listed if a cursor meets no error. -/
theorem exists_listing_iff_yields : (∃ text, s.listing = .ok text) ↔
    ∃ c items, s.cursor = .ok c ∧ c.Yields items ∧ ∀ e, .error e ∉ items := by
  rw [exists_listing_iff]
  constructor
  · rintro ⟨is, hwalk⟩
    obtain ⟨p, n, hp, hmeets⟩ := meets_of_walk hwalk
    refine ⟨_, _, map_eq_ok.mpr ⟨_, hp, rfl⟩, hmeets.yields rfl, fun e he => ?_⟩
    cases Walk.error_mem_items.mp he
  · rintro ⟨c, items, hc, hyields, hnone⟩
    obtain ⟨⟨p, n⟩, hp, rfl⟩ := map_eq_ok.mp hc
    have hmeets := Walk.meets_ofBody (s.nybbles.drop n)
    generalize hw : Walk.ofBody (s.nybbles.drop n) = w at hmeets
    obtain rfl := hyields.unique (hmeets.yields rfl)
    obtain ⟨is, fault⟩ := w
    cases fault with
    | none => exact ⟨is, walk_eq_ok_iff.mpr ⟨p, n, hp, hw.symm⟩⟩
    | some e => exact absurd (Walk.error_mem_items.mpr rfl) (hnone e)

/-- A stream is listed if instructions stand behind its prolog up to one that ends the program. -/
theorem exists_listing_iff_written : (∃ text, s.listing = .ok text) ↔ ∃ p n before rest,
    s.prolog = .ok (p, n) ∧ .finish ∉ before ∧
      s.nybbles.drop n = Instruction.writeAll (before ++ [.finish]) ++ rest := by
  rw [exists_listing_iff]
  constructor
  · rintro ⟨is, hwalk⟩
    obtain ⟨p, n, before, rest, hp, rfl, hbefore, hrest⟩ := walk_eq_complete_iff.mp hwalk
    exact ⟨p, n, before, rest, hp, hbefore, hrest⟩
  · rintro ⟨p, n, before, rest, hp, hbefore, hrest⟩
    exact ⟨_, walk_eq_complete_iff.mpr ⟨p, n, before, rest, hp, rfl, hbefore, hrest⟩⟩

/-- A stream is listed exactly if its prolog and its instructions up to the end of the program can
be read. The listing then states the base values on four lines and the size on the last one, and
in between each instruction has a line of its own. These lines are numbered from zero, and their
digits spell the body up to the end of the program. Streams with the same listing have the same
base values and the same instructions, so the same comes of decoding them. -/
theorem listing_faithful (s : NybbleStream) :
    ((∃ text, s.listing = .ok text) ↔
      ∃ c items, s.cursor = .ok c ∧ c.Yields items ∧ ∀ e, .error e ∉ items) ∧
    ((∃ text, s.listing = .ok text) ↔ ∃ p n before rest, s.prolog = .ok (p, n) ∧
      .finish ∉ before ∧
      s.nybbles.drop n = Instruction.writeAll (before ++ [.finish]) ++ rest) ∧
    ∀ text, s.listing = .ok text → ∃ p n is rest lines,
      s.prolog = .ok (p, n) ∧ s.walk = .ok ⟨is, none⟩ ∧
      s.nybbles.drop n = Instruction.writeAll is ++ rest ∧
      Text.lines text.toList =
        ["Granularity is " ++ toString p.granularity,
          "Base shift is " ++ p.baseShift.text .decimal,
          "Base PPEM is " ++ toString p.basePpem,
          "Base point is " ++ toString p.basePoint].map String.toList ++ lines ++
        [("Total bytes = " ++ toString s.packedLength).toList] ++ [[]] ∧
      lines = (is.mapIdx Instruction.line).map String.toList ∧
      lines.map Listing.number = List.range is.length ∧
      lines.flatMap Listing.digits = Hex.spelled (Instruction.writeAll is) ∧
      (lines.flatMap Listing.digits).mapM Hex.digit = .ok (Instruction.writeAll is) ∧
      ∀ t : NybbleStream, t.listing = .ok text → ∃ q m, t.prolog = .ok (q, m) ∧
        q.granularity = p.granularity ∧ q.baseShift = p.baseShift ∧
        q.basePpem = p.basePpem ∧ q.basePoint = p.basePoint ∧
        t.walk = .ok ⟨is, none⟩ ∧ t.decode = s.decode := by
  refine ⟨exists_listing_iff_yields, exists_listing_iff_written, fun text h => ?_⟩
  obtain ⟨is, hwalk⟩ := exists_listing_iff.mp ⟨text, h⟩
  obtain ⟨p, n, before, rest, hp, -, -, hrest⟩ := walk_eq_complete_iff.mp hwalk
  have hlines := lines_listing hp hwalk h
  refine ⟨p, n, is, rest, Listing.linesOf is, hp, hwalk, hrest, hlines, rfl,
    Listing.map_number_linesOf is, Listing.flatMap_digits_linesOf is,
    Listing.mapM_digits_linesOf is, fun t ht => ?_⟩
  obtain ⟨js, hwalk'⟩ := exists_listing_iff.mp ⟨text, ht⟩
  obtain ⟨q, m, hq, -⟩ := walk_eq_ok_iff.mp hwalk'
  have hsame : t.shownLines q js ++ [[]] = s.shownLines p is ++ [[]] :=
    (lines_listing hq hwalk' ht).symm.trans hlines
  obtain ⟨hlisted, rfl⟩ := eq_of_shownLines hsame
  obtain ⟨hgranularity, hshift, hppem, hpoint⟩ :=
    Prolog.eq_of_listed (isLegible_baseShift hq) (isLegible_baseShift hp) hlisted
  have hbase : q.base = p.base := by rw [Prolog.base, hshift, hppem, hpoint, Prolog.base]
  exact ⟨q, m, hq, hgranularity, hshift, hppem, hpoint, hwalk',
    decode_congr hq hp hbase (hwalk'.trans hwalk.symm)⟩

/-- Two streams of a program, the base ppem in one nybble and in three. The first one goes on
behind the program. -/
def shortPpem : NybbleStream := ⟨[3, 8, 0, 0, 0, 5, 10, 11, 15, 7, 7], by decide⟩

def longPpem : NybbleStream := ⟨[3, 8, 15, 0, 9, 0, 0, 5, 10, 11, 15], by decide⟩

def ppemText : String :=
  "Granularity is 3\nBase shift is 0.125\nBase PPEM is 9\nBase point is 0\n" ++
    "000  5 A   Set shift to 10\n001  B     DELTAS\n002  F     End of hints\nTotal bytes = 6\n"

theorem listing_shortPpem : shortPpem.listing = .ok ppemText := by decide +kernel

theorem listing_longPpem : longPpem.listing = .ok ppemText := by decide +kernel

theorem listing_faithful_ppemForms :
    shortPpem.listing = .ok ppemText ∧ longPpem.listing = .ok ppemText ∧
      longPpem.prolog = .ok (⟨3, 8, 9, 0⟩, 7) ∧
      longPpem.walk = .ok ⟨[.setShift 10, .delta .deltaS, .finish], none⟩ ∧
      longPpem.decode = shortPpem.decode := by
  obtain ⟨-, -, hlisted⟩ := listing_faithful shortPpem
  obtain ⟨p, n, is, rest, lines, -, hwalk, -, -, -, -, -, -, hothers⟩ :=
    hlisted ppemText listing_shortPpem
  obtain ⟨q, m, hq, -, -, -, -, hwalk', hdecode⟩ := hothers longPpem listing_longPpem
  have hread : shortPpem.walk = .ok ⟨[.setShift 10, .delta .deltaS, .finish], none⟩ := by
    decide +kernel
  exact ⟨listing_shortPpem, listing_longPpem, rfl, (hwalk'.trans hwalk.symm).trans hread, hdecode⟩

end NybbleStream

end GlyphHints
