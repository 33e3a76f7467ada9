import GlyphHints.Spark.Program

/-!
# Reading Spark programs

A reader takes what it reads off the front of the bytes and leaves the rest, which is never
longer (`Shortens`). A read past the end of the program is an error whatever is being read.
-/
namespace GlyphHints.Spark

/-- A computation that consumes bytes. -/
abbrev Reader := StateT (List UInt8) (Except Error)

def readByte : Reader Nat
  | [] => .error .sparkOutOfBounds
  | b :: rest => .ok (b.toNat, rest)

/-- Two bytes as one number, the high one first. -/
def readWord : Reader Nat
  | high :: low :: rest => .ok (256 * high.toNat + low.toNat, rest)
  | _ => .error .sparkOutOfBounds

def readSpec : Reader Spec
  | [] => .error .sparkOutOfBounds
  | b :: rest => .ok (⟨b⟩, rest)

/-- A number of items one after another. -/
def readTimes {α : Type} (item : Reader α) : Nat → Reader (List α)
  | 0 => pure []
  | count + 1 => do
    let a ← item
    let rest ← readTimes item count
    pure (a :: rest)

/-- A count and as many specs. -/
def readSpecs : Reader (List Spec) := readByte >>= readTimes readSpec

/-- A point with a spec of its own. -/
def readPair : Reader (Option Nat × List Spec) := do
  let point ← readWord
  let spec ← readSpec
  pure (some point, [spec])

/-- What follows the opcode of a delta. DELTAP pairs points with specs, DELTAK gives all its
points all its specs, and the other kinds have a single point or none. -/
def readEntries : DeltaKind → Reader (List (Option Nat × List Spec))
  | .deltaP => readByte >>= readTimes readPair
  | .deltaK => do
    let points ← readByte >>= readTimes readWord
    let specs ← readSpecs
    pure (points.map (some ·, specs))
  | .deltaG => do
    let specs ← readSpecs
    pure [(none, specs)]
  | .deltaL | .deltaS | .strokeDelta => do
    let point ← readWord
    let specs ← readSpecs
    pure [(some point, specs)]

/-- The rest of an instruction after its opcode, which stands at `offset`. -/
def readOperands (opcode offset : Nat) : Reader Instruction :=
  match opcode with
  | 0x00 => pure (.setAxis .y)
  | 0x01 => pure (.setAxis .x)
  | 0x5E => do
    let deltaBase ← readByte
    pure (.setDeltaBase deltaBase)
  | 0x5F => do
    let deltaShift ← readByte
    if maxDeltaShift < deltaShift then throw (.badSparkOperand opcode deltaShift)
    else pure (.setDeltaShift deltaShift)
  | 0x7F => do
    let second ← readByte
    if second = 0x0B then pure .rtgah else throw (.unknownSparkOpcode opcode offset)
  | _ =>
    match kindAndBand? opcode with
    | none => throw (.unknownSparkOpcode opcode offset)
    | some (kind, band) => do
      let entries ← readEntries kind
      pure (.delta ⟨kind, band, entries⟩)

def Shortens {α : Type} (reader : Reader α) : Prop :=
  ∀ bytes a rest, reader bytes = .ok (a, rest) → rest.length ≤ bytes.length

theorem Shortens.pure {α : Type} (a : α) : Shortens (Pure.pure a) := by
  intro bytes b rest h
  cases h
  exact Nat.le_refl _

theorem Shortens.throw {α : Type} (e : Error) : Shortens (throw e : Reader α) := by
  intro bytes a rest h
  cases h

theorem Shortens.bind {α β : Type} {reader : Reader α} {next : α → Reader β}
    (hr : Shortens reader) (hn : ∀ a, Shortens (next a)) : Shortens (reader >>= next) := by
  intro bytes b rest h
  cases hp : reader bytes with
  | error e => simp [Bind.bind, StateT.bind, hp, Except.bind] at h
  | ok p =>
    have h : next p.1 p.2 = .ok (b, rest) := by
      simpa [Bind.bind, StateT.bind, hp, Except.bind] using h
    exact Nat.le_trans (hn p.1 p.2 b rest h) (hr bytes p.1 p.2 hp)

theorem shortens_readByte : Shortens readByte := by
  intro bytes a rest h
  cases bytes <;> simp [readByte] at h
  simp [h.2]

theorem shortens_readWord : Shortens readWord := by
  intro bytes a rest h
  match bytes, h with
  | high :: low :: bytes, h =>
    simp [readWord] at h
    simp only [List.length_cons, h.2]
    omega
  | [], h => simp [readWord] at h
  | [_], h => simp [readWord] at h

theorem shortens_readSpec : Shortens readSpec := by
  intro bytes a rest h
  cases bytes <;> simp [readSpec] at h
  simp [h.2]

theorem shortens_readTimes {α : Type} {item : Reader α} (h : Shortens item) (count : Nat) :
    Shortens (readTimes item count) := by
  induction count with
  | zero => exact .pure _
  | succ count ih => exact .bind h fun _ => .bind ih fun _ => .pure _

theorem shortens_readSpecs : Shortens readSpecs :=
  .bind shortens_readByte fun count => shortens_readTimes shortens_readSpec count

theorem shortens_readPair : Shortens readPair :=
  .bind shortens_readWord fun _ => .bind shortens_readSpec fun _ => .pure _

theorem shortens_readEntries (kind : DeltaKind) : Shortens (readEntries kind) := by
  cases kind
  case deltaP =>
    exact .bind shortens_readByte fun count => shortens_readTimes shortens_readPair count
  case deltaK =>
    exact .bind (.bind shortens_readByte fun count => shortens_readTimes shortens_readWord count)
      fun _ => .bind shortens_readSpecs fun _ => .pure _
  case deltaG => exact .bind shortens_readSpecs fun _ => .pure _
  all_goals exact .bind shortens_readWord fun _ => .bind shortens_readSpecs fun _ => .pure _

theorem shortens_readOperands (opcode offset : Nat) : Shortens (readOperands opcode offset) := by
  unfold readOperands
  split
  · exact .pure _
  · exact .pure _
  · exact .bind shortens_readByte fun _ => .pure _
  · refine .bind shortens_readByte fun deltaShift => ?_
    split
    · exact .throw _
    · exact .pure _
  · refine .bind shortens_readByte fun second => ?_
    split
    · exact .pure _
    · exact .throw _
  · split
    · exact .throw _
    · exact .bind (shortens_readEntries _) fun _ => .pure _

/-- Goes on with reading a program of `total` bytes after the instructions in `met`, latest
first. -/
def readAfter (total : Nat) (met : List Instruction) :
    List UInt8 → Except Error (List Instruction)
  | [] => .ok met.reverse
  | opcode :: bytes =>
    match _h : readOperands opcode.toNat (total - (bytes.length + 1)) bytes with
    | .error e => .error e
    | .ok (i, rest) => readAfter total (i :: met) rest
termination_by bytes => bytes.length
decreasing_by
  have := shortens_readOperands _ _ _ _ _ ‹_›
  simp only [List.length_cons]
  omega

/-- The header of a program up to its length: style and gray flag. -/
def readHeader : Reader (HeaderStyle × Bool) := do
  let first ← readByte
  let second ← readByte
  if second = 0xF8 ∨ second = 0xF9 then
    if first = 0x7F then pure (.old, second = 0xF9)
    else if first = 0xB0 then do
      let third ← readByte
      if third = 0x7F then pure (.new, second = 0xF9) else throw .badSparkHeader
    else throw .badSparkHeader
  else throw .badSparkHeader

namespace Program

/-- Reads a program. Its header gives the length of the whole, which must be right. -/
def parse (bytes : List UInt8) : Except Error Program :=
  if bytes = [0xB0, 0x0B] then .ok ⟨false, .rtgahOnly, [.rtgah]⟩
  else do
    let ((style, gray), rest) ← readHeader bytes
    let (length, body) ← readWord rest
    if length ≠ bytes.length then throw .badSparkHeader
    let instructions ← readAfter length [] body
    return ⟨gray, style, instructions⟩

end Program

end GlyphHints.Spark
