import GlyphHints.Proofs.Failing
import GlyphHints.Spark.Reading

/-!
# The grammar of Spark programs

What a program looks like in bytes is said by relations, without any reader: how a list of
points or specs is stored, then an instruction, then a header. Each reader takes exactly what
its relation stores off the front of the bytes, whatever stands behind it, so a program can be
read exactly if the bytes are its header and its instructions one after another.
-/
namespace GlyphHints.Spark

/-! ## The grammar -/

/-- A way to store values in bytes. -/
abbrev Layout (α : Type) := α → List UInt8 → Prop

inductive StoresByte : Layout Nat
  | byte {n : Nat} : n < 256 → StoresByte n [UInt8.ofNat n]

/-- Two bytes, the high one first. -/
inductive StoresWord : Layout Nat
  | word {n : Nat} : n < 65536 → StoresWord n [UInt8.ofNat (n / 256), UInt8.ofNat (n % 256)]

inductive StoresSpec : Layout Spec
  | spec (spec : Spec) : StoresSpec spec [spec.byte]

/-- Items one after another. -/
inductive InOrder {α : Type} (item : Layout α) : Layout (List α)
  | nil : InOrder item [] []
  | cons {a : α} {l : List α} {front back : List UInt8} : item a front → InOrder item l back →
      InOrder item (a :: l) (front ++ back)

/-- A count in one byte and as many items. -/
inductive Counted {α : Type} (item : Layout α) : Layout (List α)
  | counted {l : List α} {count items : List UInt8} : StoresByte l.length count →
      InOrder item l items → Counted item l (count ++ items)

/-- A point with a spec of its own. -/
inductive StoresPair : Layout (Option Nat × List Spec)
  | pair {point : Nat} {spec : Spec} {front back : List UInt8} : StoresWord point front →
      StoresSpec spec back → StoresPair (some point, [spec]) (front ++ back)

/-- What follows the opcode of a delta. Specs that are shared by no point are lost. -/
inductive StoresEntries : DeltaKind → Layout (List (Option Nat × List Spec))
  | pairs {entries : List (Option Nat × List Spec)} {bytes : List UInt8} :
      Counted StoresPair entries bytes → StoresEntries .deltaP entries bytes
  | shared {points : List Nat} {specs : List Spec} {front back : List UInt8} :
      Counted StoresWord points front → Counted StoresSpec specs back →
      StoresEntries .deltaK (points.map (some ·, specs)) (front ++ back)
  | single {kind : DeltaKind} {point : Nat} {specs : List Spec} {front back : List UInt8} :
      kind ∈ [DeltaKind.deltaL, .deltaS, .strokeDelta] → StoresWord point front →
      Counted StoresSpec specs back → StoresEntries kind [(some point, specs)] (front ++ back)
  | everywhere {specs : List Spec} {bytes : List UInt8} :
      Counted StoresSpec specs bytes → StoresEntries .deltaG [(none, specs)] bytes

inductive StoresInstruction : Layout Instruction
  | axisY : StoresInstruction (.setAxis .y) [0x00]
  | axisX : StoresInstruction (.setAxis .x) [0x01]
  | deltaBase {n : Nat} {bytes : List UInt8} : StoresByte n bytes →
      StoresInstruction (.setDeltaBase n) (0x5E :: bytes)
  | deltaShift {d : Nat} {bytes : List UInt8} : d ≤ 6 → StoresByte d bytes →
      StoresInstruction (.setDeltaShift d) (0x5F :: bytes)
  | rtgah : StoresInstruction .rtgah [0x7F, 0x0B]
  | delta {kind : DeltaKind} {place opcode : Nat} {entries : List (Option Nat × List Spec)}
      {bytes : List UInt8} : (bandOpcodes kind)[place]? = some opcode →
      StoresEntries kind entries bytes →
      StoresInstruction (.delta ⟨kind, place + 1, entries⟩) (UInt8.ofNat opcode :: bytes)

/-- The byte that tells gray programs from monochrome ones. -/
def marker (gray : Bool) : UInt8 := if gray then 0xF9 else 0xF8

/-- A header up to the length it states. -/
inductive StoresStyle : Layout (HeaderStyle × Bool)
  | old (gray : Bool) : StoresStyle (.old, gray) [0x7F, marker gray]
  | new (gray : Bool) : StoresStyle (.new, gray) [0xB0, marker gray, 0x7F]

/-- A program behind a header that states the length of the whole. -/
inductive StoresProgram : Layout Program
  | headed {gray : Bool} {style : HeaderStyle} {is : List Instruction}
      {opening size body : List UInt8} : StoresStyle (style, gray) opening →
      StoresWord (opening ++ size ++ body).length size → InOrder StoresInstruction is body →
      StoresProgram ⟨gray, style, is⟩ (opening ++ size ++ body)

/-! ## Readers -/

section
variable {α β : Type} {layout : Layout α} {reader : Reader α}

/-- The reader takes exactly what the layout stores off the front of the bytes. -/
def Reads (layout : Layout α) (reader : Reader α) : Prop :=
  ∀ bytes a rest, reader bytes = .ok (a, rest) ↔ ∃ taken, layout a taken ∧ bytes = taken ++ rest

theorem Reads.pure (a : α) : Reads (fun b bytes => b = a ∧ bytes = []) (Pure.pure a) := by
  intro bytes b rest
  constructor
  · intro h
    cases h
    exact ⟨[], ⟨rfl, rfl⟩, rfl⟩
  · rintro ⟨_, ⟨rfl, rfl⟩, rfl⟩
    rfl

/-- One reader after the other. -/
theorem Reads.bind {next : α → Reader β} {after : α → Layout β} (hr : Reads layout reader)
    (hn : ∀ a, Reads (after a) (next a)) :
    Reads (fun b bytes => ∃ a front back, layout a front ∧ after a b back ∧ bytes = front ++ back)
      (reader >>= next) := by
  intro bytes b rest
  constructor
  · intro h
    obtain ⟨⟨a, middle⟩, ha, hb⟩ := bind_eq_ok.mp h
    obtain ⟨front, hfront, rfl⟩ := (hr bytes a middle).mp ha
    obtain ⟨back, hback, rfl⟩ := (hn a middle b rest).mp hb
    exact ⟨front ++ back, ⟨a, front, back, hfront, hback, rfl⟩, (List.append_assoc _ _ _).symm⟩
  · rintro ⟨_, ⟨a, front, back, hfront, hback, rfl⟩, rfl⟩
    refine bind_eq_ok.mpr ⟨(a, back ++ rest), (hr _ _ _).mpr ⟨front, hfront, ?_⟩, ?_⟩
    · exact List.append_assoc front back rest
    · exact (hn a _ b rest).mpr ⟨back, hback, rfl⟩

/-- A reader whose result is rearranged. -/
theorem Reads.map (hr : Reads layout reader) (f : α → β) :
    Reads (fun b bytes => ∃ a, layout a bytes ∧ b = f a) (do let a ← reader; Pure.pure (f a)) := by
  intro bytes b rest
  rw [hr.bind (fun a => .pure (f a)) bytes b rest]
  constructor
  · rintro ⟨_, ⟨a, front, _, hfront, ⟨rfl, rfl⟩, rfl⟩, rfl⟩
    exact ⟨front, ⟨a, hfront, rfl⟩, by simp⟩
  · rintro ⟨taken, ⟨a, htaken, rfl⟩, rfl⟩
    exact ⟨taken, ⟨a, taken, [], htaken, ⟨rfl, rfl⟩, by simp⟩, rfl⟩

theorem Reads.congr {other : Layout α} (hr : Reads layout reader)
    (h : ∀ a bytes, layout a bytes ↔ other a bytes) : Reads other reader := by
  have hlayout : layout = other := funext fun a => funext fun bytes => propext (h a bytes)
  exact hlayout ▸ hr

theorem reads_readTimes (hr : Reads layout reader) (count : Nat) :
    Reads (fun l bytes => l.length = count ∧ InOrder layout l bytes) (readTimes reader count) := by
  induction count with
  | zero =>
    refine (Reads.pure []).congr fun l bytes => ?_
    constructor
    · rintro ⟨rfl, rfl⟩
      exact ⟨rfl, .nil⟩
    · rintro ⟨hlength, hitems⟩
      obtain rfl := List.length_eq_zero_iff.mp hlength
      cases hitems
      exact ⟨rfl, rfl⟩
  | succ count ih =>
    refine (hr.bind fun a => ih.map (a :: ·)).congr fun l bytes => ?_
    constructor
    · rintro ⟨a, front, back, hfront, ⟨l, ⟨rfl, hback⟩, rfl⟩, rfl⟩
      exact ⟨rfl, .cons hfront hback⟩
    · rintro ⟨hlength, hitems⟩
      cases hitems with
      | nil => contradiction
      | @cons a l front back hfront hback =>
        exact ⟨a, front, back, hfront, ⟨l, ⟨Nat.succ.inj hlength, hback⟩, rfl⟩, rfl⟩

end

theorem reads_readByte : Reads StoresByte readByte := by
  intro bytes n rest
  constructor
  · intro h
    cases bytes with
    | nil => contradiction
    | cons b bytes =>
      cases h
      have hstored : StoresByte b.toNat [UInt8.ofNat b.toNat] := .byte b.toNat_lt
      rw [UInt8.ofNat_toNat] at hstored
      exact ⟨[b], hstored, rfl⟩
  · rintro ⟨_, ⟨hlt⟩, rfl⟩
    exact congrArg (fun m => Except.ok (m, rest)) (UInt8.toNat_ofNat_of_lt' hlt)

theorem reads_readWord : Reads StoresWord readWord := by
  intro bytes n rest
  constructor
  · intro h
    match bytes, h with
    | high :: low :: bytes, h =>
      cases h
      have hhigh := high.toNat_lt
      have hlow := low.toNat_lt
      have hstored : StoresWord (256 * high.toNat + low.toNat) _ := .word (by omega)
      rw [show (256 * high.toNat + low.toNat) / 256 = high.toNat by omega,
        show (256 * high.toNat + low.toNat) % 256 = low.toNat by omega,
        UInt8.ofNat_toNat, UInt8.ofNat_toNat] at hstored
      exact ⟨[high, low], hstored, rfl⟩
  · rintro ⟨_, ⟨hlt⟩, rfl⟩
    have hhigh : (UInt8.ofNat (n / 256)).toNat = n / 256 :=
      UInt8.toNat_ofNat_of_lt' (by simp [UInt8.size]; omega)
    have hlow : (UInt8.ofNat (n % 256)).toNat = n % 256 :=
      UInt8.toNat_ofNat_of_lt' (by simp [UInt8.size]; omega)
    change Except.ok (256 * (UInt8.ofNat (n / 256)).toNat + (UInt8.ofNat (n % 256)).toNat, rest) = _
    rw [hhigh, hlow, Nat.div_add_mod]

theorem reads_readSpec : Reads StoresSpec readSpec := by
  intro bytes spec rest
  constructor
  · intro h
    cases bytes with
    | nil => contradiction
    | cons b bytes =>
      cases h
      exact ⟨[b], .spec ⟨b⟩, rfl⟩
  · rintro ⟨_, ⟨_⟩, rfl⟩
    rfl

theorem reads_counted {α : Type} {layout : Layout α} {reader : Reader α}
    (hr : Reads layout reader) : Reads (Counted layout) (readByte >>= readTimes reader) := by
  refine (reads_readByte.bind (reads_readTimes hr)).congr fun l bytes => ?_
  constructor
  · rintro ⟨_, count, items, hcount, ⟨rfl, hitems⟩, rfl⟩
    exact .counted hcount hitems
  · rintro ⟨hcount, hitems⟩
    exact ⟨l.length, _, _, hcount, ⟨rfl, hitems⟩, rfl⟩

theorem reads_readSpecs : Reads (Counted StoresSpec) readSpecs := reads_counted reads_readSpec

theorem reads_readPair : Reads StoresPair readPair := by
  refine (reads_readWord.bind fun point => reads_readSpec.map fun spec =>
    (some point, [spec])).congr fun e bytes => ?_
  constructor
  · rintro ⟨point, front, back, hfront, ⟨spec, hback, rfl⟩, rfl⟩
    exact .pair hfront hback
  · rintro ⟨hfront, hback⟩
    exact ⟨_, _, _, hfront, ⟨_, hback, rfl⟩, rfl⟩

/-- A point and the specs it receives. -/
theorem reads_single {kind : DeltaKind} (hkind : kind ∈ [DeltaKind.deltaL, .deltaS, .strokeDelta]) :
    Reads (StoresEntries kind) (do
      let point ← readWord
      let specs ← readSpecs
      pure [(some point, specs)]) := by
  refine (reads_readWord.bind fun point => reads_readSpecs.map fun specs =>
    [(some point, specs)]).congr fun entries bytes => ?_
  constructor
  · rintro ⟨point, front, back, hfront, ⟨specs, hback, rfl⟩, rfl⟩
    exact .single hkind hfront hback
  · intro h
    cases h with
    | single _ hfront hback => exact ⟨_, _, _, hfront, ⟨_, hback, rfl⟩, rfl⟩
    | pairs | shared | everywhere => simp at hkind

theorem reads_readEntries (kind : DeltaKind) : Reads (StoresEntries kind) (readEntries kind) := by
  cases kind with
  | deltaP =>
    refine (reads_counted reads_readPair).congr fun entries bytes => ?_
    constructor
    · exact .pairs
    · intro h
      cases h with
      | pairs h => exact h
      | single hkind => simp at hkind
  | deltaK =>
    refine ((reads_counted reads_readWord).bind fun points =>
      reads_readSpecs.map fun specs => points.map (some ·, specs)).congr fun entries bytes => ?_
    constructor
    · rintro ⟨points, front, back, hfront, ⟨specs, hback, rfl⟩, rfl⟩
      exact .shared hfront hback
    · intro h
      cases h with
      | shared hfront hback => exact ⟨_, _, _, hfront, ⟨_, hback, rfl⟩, rfl⟩
      | single hkind => simp at hkind
  | deltaG =>
    refine (reads_readSpecs.map fun specs => [(none, specs)]).congr fun entries bytes => ?_
    constructor
    · rintro ⟨specs, hspecs, rfl⟩
      exact .everywhere hspecs
    · intro h
      cases h with
      | everywhere h => exact ⟨_, h, rfl⟩
      | single hkind => simp at hkind
  | deltaL | deltaS | strokeDelta => exact reads_single (by decide)

/-! ## Instructions -/

theorem kindAndBand?_eq_some_iff {opcode band : Nat} {kind : DeltaKind} :
    kindAndBand? opcode = some (kind, band) ↔
      ∃ place, (bandOpcodes kind)[place]? = some opcode ∧ band = place + 1 := by
  constructor
  · intro h
    obtain ⟨k, _, h⟩ := List.exists_of_findSome?_eq_some h
    obtain ⟨place, hplace, hband⟩ := Option.map_eq_some_iff.mp h
    obtain ⟨rfl, rfl⟩ := Prod.mk.inj hband
    obtain ⟨hlt, hop, -⟩ := List.findIdx?_eq_some_iff_getElem.mp hplace
    exact ⟨place, List.getElem?_eq_some_iff.mpr ⟨hlt, by simpa using hop⟩, rfl⟩
  · rintro ⟨place, hplace, rfl⟩
    have hall : ∀ k : DeltaKind, ∀ place < 3, ∀ opcode ∈ (bandOpcodes k)[place]?,
        kindAndBand? opcode = some (k, place + 1) := by
      intro k
      cases k <;> decide
    have hlength : (bandOpcodes kind).length = 3 := by cases kind <;> rfl
    have hlt := (List.getElem?_eq_some_iff.mp hplace).choose
    exact hall kind place (by omega) opcode hplace

theorem opcode_lt {kind : DeltaKind} {opcode : Nat} (h : opcode ∈ bandOpcodes kind) :
    opcode < 256 := by
  revert opcode
  cases kind <;> decide

/-- The opcodes of deltas are none of the others. -/
theorem readOperands_of_delta {opcode band : Nat} {kind : DeltaKind}
    (h : kindAndBand? opcode = some (kind, band)) (offset : Nat) :
    readOperands opcode offset = (do
      let entries ← readEntries kind
      pure (.delta ⟨kind, band, entries⟩)) := by
  unfold readOperands
  split
  case h_6 => simp only [h]
  all_goals cases h

theorem stores_of_readOperands {opcode offset : Nat} {i : Instruction} {bytes rest : List UInt8}
    (h : readOperands opcode offset bytes = .ok (i, rest)) :
    ∃ taken, StoresInstruction i (UInt8.ofNat opcode :: taken) ∧ bytes = taken ++ rest := by
  unfold readOperands at h
  split at h
  case h_1 =>
    cases h
    exact ⟨[], .axisY, rfl⟩
  case h_2 =>
    cases h
    exact ⟨[], .axisX, rfl⟩
  case h_3 =>
    obtain ⟨taken, ⟨n, hn, rfl⟩, rfl⟩ := (reads_readByte.map _ _ _ _).mp h
    exact ⟨taken, .deltaBase hn, rfl⟩
  case h_4 =>
    obtain ⟨⟨d, middle⟩, hd, hrest⟩ := bind_eq_ok.mp h
    obtain ⟨taken, hbyte, rfl⟩ := (reads_readByte _ _ _).mp hd
    dsimp only at hrest
    split_ifs at hrest with hlarge
    · contradiction
    · cases hrest
      exact ⟨taken, .deltaShift (Nat.le_of_not_lt hlarge) hbyte, rfl⟩
  case h_5 =>
    obtain ⟨⟨second, middle⟩, hsecond, hrest⟩ := bind_eq_ok.mp h
    obtain ⟨taken, ⟨_⟩, rfl⟩ := (reads_readByte _ _ _).mp hsecond
    dsimp only at hrest
    split_ifs at hrest with hrtgah
    · cases hrest
      exact ⟨_, hrtgah ▸ .rtgah, rfl⟩
    · contradiction
  case h_6 =>
    cases hkind : kindAndBand? opcode with
    | none =>
      rw [hkind] at h
      contradiction
    | some delta =>
      obtain ⟨kind, band⟩ := delta
      rw [hkind] at h
      obtain ⟨place, hplace, rfl⟩ := kindAndBand?_eq_some_iff.mp hkind
      obtain ⟨taken, ⟨entries, hentries, rfl⟩, rfl⟩ := ((reads_readEntries kind).map _ _ _ _).mp h
      exact ⟨taken, .delta hplace hentries, rfl⟩

theorem readOperands_of_stores {opcode : UInt8} {i : Instruction} {taken : List UInt8}
    (h : StoresInstruction i (opcode :: taken)) (offset : Nat) (rest : List UInt8) :
    readOperands opcode.toNat offset (taken ++ rest) = .ok (i, rest) := by
  cases h with
  | axisY | axisX | rtgah => rfl
  | deltaBase hn =>
    exact (reads_readByte.map Instruction.setDeltaBase _ _ _).mpr ⟨taken, ⟨_, hn, rfl⟩, rfl⟩
  | @deltaShift d _ hd hbyte =>
    refine bind_eq_ok.mpr ⟨_, (reads_readByte _ _ _).mpr ⟨taken, hbyte, rfl⟩, ?_⟩
    dsimp only
    rw [if_neg (show ¬ maxDeltaShift < d from Nat.not_lt.mpr hd)]
    rfl
  | @delta kind place op entries _ hplace hentries =>
    have hlt := opcode_lt (List.mem_of_getElem? hplace)
    have hkind := kindAndBand?_eq_some_iff.mpr ⟨place, hplace, rfl⟩
    rw [UInt8.toNat_ofNat_of_lt' hlt, readOperands_of_delta hkind]
    exact ((reads_readEntries kind).map _ _ _ _).mpr ⟨taken, ⟨entries, hentries, rfl⟩, rfl⟩

/-- Every instruction takes a byte at least. -/
theorem exists_opcode {i : Instruction} {bytes : List UInt8} (h : StoresInstruction i bytes) :
    ∃ opcode taken, bytes = opcode :: taken := by
  cases h <;> exact ⟨_, _, rfl⟩

theorem readAfter_cons (total : Nat) (met : List Instruction) (opcode : UInt8)
    (bytes : List UInt8) : readAfter total met (opcode :: bytes) =
      (readOperands opcode.toNat (total - (bytes.length + 1)) bytes >>= fun p =>
        readAfter total (p.1 :: met) p.2) := by
  rw [readAfter]
  split <;> rename_i h <;> rw [h] <;> rfl

theorem readAfter_eq_ok_iff {total : Nat} {met is : List Instruction} {bytes : List UInt8} :
    readAfter total met bytes = .ok is ↔
      ∃ found, is = met.reverse ++ found ∧ InOrder StoresInstruction found bytes := by
  constructor
  · intro h
    induction met, bytes using readAfter.induct total with
    | case1 met =>
      rw [readAfter] at h
      cases h
      exact ⟨[], by simp, .nil⟩
    | case2 met opcode bytes e he =>
      rw [readAfter_cons, he] at h
      contradiction
    | case3 met opcode bytes i rest hi ih =>
      rw [readAfter_cons, hi] at h
      obtain ⟨found, rfl, hfound⟩ := ih h
      obtain ⟨taken, hstored, rfl⟩ := stores_of_readOperands hi
      rw [UInt8.ofNat_toNat] at hstored
      exact ⟨i :: found, by simp, .cons hstored hfound⟩
  · rintro ⟨found, rfl, hfound⟩
    induction hfound generalizing met with
    | nil => rw [readAfter, List.append_nil]
    | @cons i is front back hfront _ ih =>
      obtain ⟨opcode, taken, rfl⟩ := exists_opcode hfront
      rw [List.cons_append, readAfter_cons]
      refine bind_eq_ok.mpr ⟨(i, back), readOperands_of_stores hfront _ _, ?_⟩
      rw [ih, List.reverse_cons, List.append_assoc, List.singleton_append]

/-- Turns of the loop that reads the instructions of a program of `total` bytes, after those in
`met`, latest first. It stops where no byte is left, and where an instruction cannot be read. -/
inductive Loop (total : Nat) :
    Nat → List Instruction → List UInt8 → Except Error (List Instruction) → Prop
  | done (met : List Instruction) : Loop total 0 met [] (.ok met.reverse)
  | fault {met : List Instruction} {opcode : UInt8} {bytes : List UInt8} {e : Error} :
      readOperands opcode.toNat (total - (bytes.length + 1)) bytes = .error e →
      Loop total 1 met (opcode :: bytes) (.error e)
  | turn {n : Nat} {met : List Instruction} {opcode : UInt8} {i : Instruction}
      {bytes rest : List UInt8} {result : Except Error (List Instruction)} :
      readOperands opcode.toNat (total - (bytes.length + 1)) bytes = .ok (i, rest) →
      Loop total n (i :: met) rest result → Loop total (n + 1) met (opcode :: bytes) result

theorem exists_loop (total : Nat) (met : List Instruction) (bytes : List UInt8) :
    ∃ turns ≤ bytes.length, Loop total turns met bytes (readAfter total met bytes) := by
  induction met, bytes using readAfter.induct total with
  | case1 met =>
    rw [readAfter]
    exact ⟨0, Nat.zero_le _, .done met⟩
  | case2 met opcode bytes e he =>
    rw [readAfter_cons, he]
    exact ⟨1, Nat.succ_le_succ (Nat.zero_le _), .fault he⟩
  | case3 met opcode bytes i rest hi ih =>
    obtain ⟨turns, hturns, hloop⟩ := ih
    have hshort := shortens_readOperands _ _ _ _ _ hi
    rw [readAfter_cons, hi]
    exact ⟨turns + 1, Nat.succ_le_succ (Nat.le_trans hturns hshort), .turn hi hloop⟩

/-! ## Programs -/

theorem StoresWord.length_eq {n : Nat} {bytes : List UInt8} (h : StoresWord n bytes) :
    bytes.length = 2 := by
  cases h
  rfl

theorem StoresStyle.two_le_length {style : HeaderStyle × Bool} {bytes : List UInt8}
    (h : StoresStyle style bytes) : 2 ≤ bytes.length := by
  cases h <;> simp

theorem marker_of_or {second : Nat} (h : second = 0xF8 ∨ second = 0xF9) :
    UInt8.ofNat second = marker (decide (second = 0xF9)) := by
  rcases h with rfl | rfl <;> rfl

theorem reads_readHeader : Reads StoresStyle readHeader := by
  intro bytes style rest
  constructor
  · intro h
    obtain ⟨⟨first, behindFirst⟩, hfirst, hsecond⟩ := bind_eq_ok.mp h
    obtain ⟨_, ⟨_⟩, rfl⟩ := (reads_readByte _ _ _).mp hfirst
    obtain ⟨⟨second, behindSecond⟩, hsecond, hmark⟩ := bind_eq_ok.mp hsecond
    obtain ⟨_, ⟨_⟩, rfl⟩ := (reads_readByte _ _ _).mp hsecond
    dsimp only at hmark
    split_ifs at hmark with hmarker hold hnew
    · cases hmark
      exact ⟨_, .old _, by rw [hold, marker_of_or hmarker]; rfl⟩
    · obtain ⟨⟨third, behindThird⟩, hthird, hlast⟩ := bind_eq_ok.mp hmark
      obtain ⟨_, ⟨_⟩, rfl⟩ := (reads_readByte _ _ _).mp hthird
      dsimp only at hlast
      split_ifs at hlast with hprefix
      · cases hlast
        exact ⟨_, .new _, by rw [hnew, hprefix, marker_of_or hmarker]; rfl⟩
      · contradiction
    · contradiction
    · contradiction
  · rintro ⟨_, ⟨gray⟩ | ⟨gray⟩, rfl⟩ <;> cases gray <;> rfl

namespace Program

theorem parse_eq_ok_iff {bytes : List UInt8} {p : Program} : parse bytes = .ok p ↔
    (bytes = [0xB0, 0x0B] ∧ p = ⟨false, .rtgahOnly, [.rtgah]⟩) ∨ StoresProgram p bytes := by
  unfold parse
  constructor
  · intro h
    split_ifs at h with hrtgah
    · exact .inl ⟨hrtgah, (Except.ok.inj h).symm⟩
    · obtain ⟨⟨⟨style, gray⟩, rest⟩, hstyle, h⟩ := bind_eq_ok.mp h
      obtain ⟨⟨length, body⟩, hlength, h⟩ := bind_eq_ok.mp h
      obtain ⟨opening, hopening, rfl⟩ := (reads_readHeader _ _ _).mp hstyle
      obtain ⟨size, hsize, rfl⟩ := (reads_readWord _ _ _).mp hlength
      dsimp only at h
      split_ifs at h with hwhole
      · contradiction
      · obtain ⟨is, his, h⟩ := bind_eq_ok.mp h
        obtain ⟨found, rfl, hfound⟩ := readAfter_eq_ok_iff.mp his
        obtain rfl := Except.ok.inj h
        rw [← List.append_assoc] at hwhole ⊢
        exact .inr (.headed hopening (not_not.mp hwhole ▸ hsize) hfound)
  · rintro (⟨rfl, rfl⟩ | ⟨hopening, hsize, hbody⟩)
    · rfl
    · rename_i gray style is opening size body
      have hne : opening ++ size ++ body ≠ [0xB0, 0x0B] := by
        intro h
        have hlength := congrArg List.length h
        have htwo := hopening.two_le_length
        simp [hsize.length_eq] at hlength
        omega
      rw [if_neg hne, List.append_assoc]
      refine bind_eq_ok.mpr ⟨_, (reads_readHeader _ _ _).mpr ⟨opening, hopening, rfl⟩, ?_⟩
      refine bind_eq_ok.mpr ⟨_, (reads_readWord _ _ _).mpr ⟨size, hsize, rfl⟩, ?_⟩
      rw [← List.append_assoc]
      simp only [ne_eq, not_true_eq_false, if_false]
      exact bind_eq_ok.mpr ⟨is, readAfter_eq_ok_iff.mpr ⟨is, rfl, hbody⟩, rfl⟩

/-- A program is read exactly from the bytes it is stored in, all of them: the two bytes of RTGAH
alone, or a header with the length of the whole and the instructions in order. Whatever the bytes
are, the loop over the instructions comes to an end, after a turn for each byte at most. -/
theorem parse_grammar :
    (∀ bytes p, parse bytes = .ok p ↔
      (bytes = [0xB0, 0x0B] ∧ p = ⟨false, .rtgahOnly, [.rtgah]⟩) ∨ StoresProgram p bytes) ∧
    ∀ total body, ∃ turns ≤ body.length, Loop total turns [] body (readAfter total [] body) :=
  ⟨fun _ _ => parse_eq_ok_iff, fun total body => exists_loop total [] body⟩

/-- Specs are read, and lost, where no point receives them. -/
example : parse [0x7F, 0xF8, 0x00, 0x08, 0xA7, 0x00, 0x01, 0x5A] =
    .ok ⟨false, .old, [.delta ⟨.deltaK, 1, []⟩]⟩ := by decide +kernel

end Program

end GlyphHints.Spark
