import GlyphHints.Proofs.Commands
import GlyphHints.Proofs.Tally

/-!
# Counting streams

What is counted adds up, so the counts of many streams do not depend on the order in which they
are taken, or on which of them are counted apart and merged, and neither does what is reported of
a glyph file.
-/
namespace GlyphHints

/-- A kind of counts: none, those with one more symbol, those with the body of a stream, and
those of two merged. -/
structure Counter (σ : Type) where
  empty : σ
  addSymbol : σ → Symbol → σ
  accumulate : σ → NybbleStream → Except Error σ
  merge : σ → σ → σ

def SplitTally.counter : Counter SplitTally :=
  ⟨SplitTally.empty, SplitTally.addSymbol, SplitTally.accumulate, SplitTally.merge⟩

def FusedTally.counter : Counter FusedTally :=
  ⟨Tally.empty, fun t x => t.add x 1, FusedTally.accumulate, Tally.merge⟩

/-- A way to count streams: nothing yet, one more stream, or two such ways merged. -/
inductive Counting where
  | start
  | accumulate (earlier : Counting) (s : NybbleStream)
  | merge (a b : Counting)

/-- The streams that are counted, from left to right. -/
def Counting.streams : Counting → List NybbleStream
  | start => []
  | accumulate earlier s => earlier.streams ++ [s]
  | merge a b => a.streams ++ b.streams

namespace Counter
variable {σ : Type}

/-- The counts that a way of counting comes to. -/
def run (k : Counter σ) : Counting → Except Error σ
  | .start => .ok k.empty
  | .accumulate earlier s => do k.accumulate (← k.run earlier) s
  | .merge a b => do return k.merge (← k.run a) (← k.run b)

/-- Counting as a loop over counts that are updated in place. -/
def loop (k : Counter σ) (s : NybbleStream) : ExceptT Error (StateM σ) Unit := do
  for x in ← s.symbols do
    modify (k.addSymbol · x)

/-- The counts of streams are `t`, whichever way they are counted. -/
structure ComesTo (k : Counter σ) (streams : List NybbleStream) (t : σ) : Prop where
  accumulated : streams.foldlM k.accumulate k.empty = .ok t
  merged : ∃ each, streams.mapM (k.accumulate k.empty) = .ok each ∧
    each.foldl k.merge k.empty = t
  mixed : ∀ c : Counting, c.streams.Perm streams → k.run c = .ok t

/-- Merging is a commutative monoid, and a loop over counts in place comes to the same counts as
`accumulate`, or stops with its fault and the counts as they were. -/
structure Lawful (k : Counter σ) : Prop where
  assoc : ∀ a b c, k.merge (k.merge a b) c = k.merge a (k.merge b c)
  comm : ∀ a b, k.merge a b = k.merge b a
  empty_merge : ∀ a, k.merge k.empty a = a
  merge_empty : ∀ a, k.merge a k.empty = a
  loop_eq : ∀ s t, (k.loop s).run.run t = match k.accumulate t s with
    | .ok u => (.ok (), u)
    | .error e => (.error e, t)
  fault : ∀ s e, s.symbols = .error e → ∀ t, k.accumulate t s = .error e

variable [AddCommMonoid σ]

/-- Counts that add up what stands for each symbol. -/
structure IsSum (k : Counter σ) (one : Symbol → σ) : Prop where
  empty : k.empty = 0
  addSymbol : k.addSymbol = fun t x => t + one x
  accumulate : ∀ t s, k.accumulate t s = s.symbols.map (·.foldl k.addSymbol t)
  merge : k.merge = (· + ·)

end Counter

theorem SplitTally.counter_isSum : counter.IsSum single :=
  ⟨rfl, funext₂ addSymbol_eq_add, fun _ _ => rfl, rfl⟩

theorem FusedTally.counter_isSum : counter.IsSum fun x => Table.single x 1 :=
  ⟨rfl, rfl, fun _ _ => rfl, rfl⟩

namespace Counter.IsSum
variable {σ : Type} [AddCommMonoid σ] {k : Counter σ} {one : Symbol → σ}
variable {s : NybbleStream} {streams : List NybbleStream} {symbols : List Symbol}
variable {found : List (List Symbol)}

theorem loop_eq (hk : k.IsSum one) (s : NybbleStream) (t : σ) :
    (k.loop s).run.run t = match k.accumulate t s with
      | .ok u => (.ok (), u)
      | .error e => (.error e, t) := by
  rw [hk.accumulate]
  unfold loop
  -- The symbols are told before any of them is counted.
  cases s.symbols with
  | error e => rfl
  | ok symbols =>
    change (do
      for x in symbols do
        modify (k.addSymbol · x) : ExceptT Error (StateM σ) Unit).run.run t = _
    induction symbols generalizing t with
    | nil => rfl
    | cons x symbols ih =>
      rw [List.forIn_cons]
      exact ih (k.addSymbol t x)

theorem lawful (hk : k.IsSum one) : k.Lawful where
  assoc a b c := by simp only [hk.merge, add_assoc]
  comm a b := by simp only [hk.merge, add_comm]
  empty_merge a := by simp only [hk.merge, hk.empty, zero_add]
  merge_empty a := by simp only [hk.merge, hk.empty, add_zero]
  loop_eq := hk.loop_eq
  fault s e hs t := by rw [hk.accumulate, hs, Except.map]

theorem accumulate_eq (hk : k.IsSum one) (hs : s.symbols = .ok symbols) (t : σ) :
    k.accumulate t s = .ok (t + (symbols.map one).sum) := by
  rw [hk.accumulate, hs, hk.addSymbol]
  exact congrArg Except.ok (foldl_add_sum one symbols t)

theorem foldlM_accumulate (hk : k.IsSum one) (h : streams.mapM NybbleStream.symbols = .ok found)
    (t : σ) : streams.foldlM k.accumulate t = .ok (t + (found.flatten.map one).sum) := by
  induction mapM_eq_ok_iff.mp h generalizing t with
  | nil => simp [pure, Except.pure]
  | @cons s symbols streams found hs hrest ih =>
    rw [List.foldlM_cons, hk.accumulate_eq hs]
    exact (ih (mapM_eq_ok_iff.mpr hrest) _).trans (by simp [add_assoc])

theorem mapM_accumulate (hk : k.IsSum one) (h : streams.mapM NybbleStream.symbols = .ok found) :
    streams.mapM (k.accumulate k.empty) = .ok (found.map fun l => (l.map one).sum) := by
  rw [mapM_eq_ok_iff] at h ⊢
  refine List.forall₂_map_right_iff.mpr (h.imp fun s symbols hs => ?_)
  rw [hk.accumulate_eq hs, hk.empty, zero_add]

theorem run_eq (hk : k.IsSum one) {c : Counting}
    (h : c.streams.mapM NybbleStream.symbols = .ok found) :
    k.run c = .ok (found.flatten.map one).sum := by
  induction c generalizing found with
  | start =>
    obtain rfl : [] = found := Except.ok.inj h
    exact congrArg Except.ok hk.empty
  | accumulate c s ih =>
    obtain ⟨earlier, last, hearlier, hlast, rfl⟩ := mapM_append_eq_ok h
    obtain ⟨symbols, hs, rfl⟩ : ∃ symbols, s.symbols = .ok symbols ∧ [symbols] = last := by
      cases mapM_eq_ok_iff.mp hlast with
      | cons hs hnil =>
        cases hnil
        exact ⟨_, hs, rfl⟩
    rw [run, ih hearlier]
    exact (hk.accumulate_eq hs _).trans (by simp)
  | merge a b iha ihb =>
    obtain ⟨left, right, hleft, hright, rfl⟩ := mapM_append_eq_ok h
    rw [run, iha hleft, ihb hright, hk.merge, List.flatten_append, List.map_append, List.sum_append]
    rfl

theorem foldl_merge_eq (hk : k.IsSum one) (each : List σ) :
    each.foldl k.merge k.empty = each.sum := by
  rw [hk.merge, hk.empty]
  exact List.sum_eq_foldl.symm

theorem foldl_merge_perm (hk : k.IsSum one) {each each' : List σ} (h : each'.Perm each) :
    each'.foldl k.merge k.empty = each.foldl k.merge k.empty := by
  rw [hk.foldl_merge_eq, hk.foldl_merge_eq, h.sum_eq]

theorem comesTo (hk : k.IsSum one) (h : streams.mapM NybbleStream.symbols = .ok found) :
    k.ComesTo streams (found.flatten.map one).sum where
  accumulated := by rw [hk.foldlM_accumulate h, hk.empty, zero_add]
  merged := by
    refine ⟨_, hk.mapM_accumulate h, ?_⟩
    rw [hk.foldl_merge_eq, List.map_flatten, List.sum_flatten, List.map_map]
    rfl
  mixed c hperm := by
    obtain ⟨found', hfound', hperm'⟩ := exists_mapM_of_perm h hperm
    rw [hk.run_eq hfound', (hperm'.flatten.map one).sum_eq]

end Counter.IsSum

theorem isFramed_of_symbols {streams : List NybbleStream} {found : List (List Symbol)}
    (h : streams.mapM NybbleStream.symbols = .ok found) : ∀ x ∈ found.flatten, x.IsFramed := by
  intro x hx
  obtain ⟨symbols, hsymbols, hx⟩ := List.mem_flatten.mp hx
  obtain ⟨s, -, hs⟩ := exists_of_mem_mapM h hsymbols
  obtain ⟨body, -, hsplit⟩ := bind_eq_ok.mp hs
  exact (Symbol.split_eq_ok_iff.mp hsplit).2.1 x hx

/-- The order of the records makes no difference to what is counted over them. -/
theorem Command.runOn_stats_perm {records records' : List GlyphRecord}
    (h : records'.Perm records) (input : String) (fused : Bool) (format : Format) :
    ((stats input fused format).runOn records').printed =
        ((stats input fused format).runOn records).printed ∧
      ((stats input fused format).runOn records').fault =
        ((stats input fused format).runOn records).fault := by
  cases fused with
  | true =>
    refine reportAll_perm (fun each each' heach => congrArg FusedTally.report ?_) h
    exact FusedTally.counter_isSum.foldl_merge_perm heach
  | false =>
    refine reportAll_perm (fun each each' heach => congrArg SplitTally.report ?_) h
    exact SplitTally.counter_isSum.foldl_merge_perm heach

theorem Command.printed_stats {records : List GlyphRecord} {hints : List CompressedHints}
    {t : SplitTally} {f : FusedTally} {format : Format}
    (hunpack : records.mapM (GlyphRecord.unpack format) = .ok hints)
    (ht : SplitTally.counter.ComesTo (hints.map (·.stream)) t)
    (hf : FusedTally.counter.ComesTo (hints.map (·.stream)) f) (input : String) :
    ((stats input false format).runOn records).printed = t.report ∧
      ((stats input true format).runOn records).printed = f.report := by
  obtain ⟨splits, hsplits, rfl⟩ := ht.merged
  obtain ⟨fuseds, hfuseds, rfl⟩ := hf.merged
  exact ⟨printed_reportAll (GlyphRecord.mapM_walk hunpack hsplits) _,
    printed_reportAll (GlyphRecord.mapM_walk hunpack hfuseds) _⟩

/-- Counts merge as a commutative monoid does, and a stream whose symbols cannot be told leaves
them as they are. The counts of streams whose symbols can be told are the same whichever way they
are counted: those of whole symbols tell how often each of them came up, and those of opcodes and
operands split these. They are what is reported of records that hold these streams, so the lines
of a glyph file can be counted in any order. -/
theorem Counter.counts_of_streams :
    SplitTally.counter.Lawful ∧ FusedTally.counter.Lawful ∧
      (∀ streams found, streams.mapM NybbleStream.symbols = .ok found → ∃ t f,
        SplitTally.counter.ComesTo streams t ∧ FusedTally.counter.ComesTo streams f ∧
        (∀ x, f.get? x = recorded (found.flatten.count x)) ∧
        f.total = found.flatten.length ∧ t.Splits f ∧
        ∀ records hints format, records.mapM (GlyphRecord.unpack format) = .ok hints →
          hints.map (·.stream) = streams → ∀ input,
            ((Command.stats input false format).runOn records).printed = t.report ∧
            ((Command.stats input true format).runOn records).printed = f.report) ∧
      ∀ text text' records, GlyphRecord.readAll text = .ok records →
        (Text.lines text'.toList).Perm (Text.lines text.toList) →
        (∃ records', GlyphRecord.readAll text' = .ok records' ∧ records'.Perm records) ∧
        ∀ input fused format,
          ((Command.stats input fused format).run (.ok text'.toUTF8)).printed =
            ((Command.stats input fused format).run (.ok text.toUTF8)).printed ∧
          ((Command.stats input fused format).run (.ok text'.toUTF8)).fault =
            ((Command.stats input fused format).run (.ok text.toUTF8)).fault := by
  refine ⟨SplitTally.counter_isSum.lawful, FusedTally.counter_isSum.lawful,
    fun streams found h => ?_, fun text text' records h hlines => ?_⟩
  · have ht := SplitTally.counter_isSum.comesTo h
    have hf := FusedTally.counter_isSum.comesTo h
    refine ⟨SplitTally.ofList found.flatten, Tally.ofList found.flatten, ht, hf,
      Tally.get?_ofList _, ?_, SplitTally.splits_ofList (isFramed_of_symbols h), ?_⟩
    · rw [Tally.total_eq_sumWhere, Tally.sumWhere_ofList, List.countP_true]
    · rintro records hints format hunpack rfl input
      exact Command.printed_stats hunpack ht hf input
  · obtain ⟨records', h', hperm⟩ := GlyphRecord.exists_readAll_of_perm h hlines
    refine ⟨⟨records', h', hperm⟩, fun input fused format => ?_⟩
    rw [Command.run_of_readAll h, Command.run_of_readAll h']
    exact Command.runOn_stats_perm hperm input fused format

/-- A glyph with a few hints, and one with none. -/
def countedStreams : List NybbleStream :=
  [⟨[3, 8, 0, 0, 0, 1, 2, 8, 8, 2, 3, 8, 14, 15], by decide⟩, .noHints]

def countedSymbols : List (List Symbol) :=
  [[.fused 1 2, .bare 8, .bare 8, .fused 2 3, .bare 8, .bare 14, .bare 15], [.bare 14, .bare 15]]

def countedRecords : List GlyphRecord :=
  [⟨"few", [0x7F, 0xF7, 0x00, 0x0B, 0x38, 0x00, 0x01, 0x28, 0x82, 0x38, 0xEF]⟩,
    ⟨"none", [0x7F, 0xF7, 0x00, 0x08, 0x30, 0x00, 0x0E, 0xF0]⟩]

theorem Counter.counts_of_streams_counted :
    countedStreams.mapM NybbleStream.symbols = .ok countedSymbols ∧
      (∃ t f, SplitTally.counter.ComesTo countedStreams t ∧
        FusedTally.counter.ComesTo countedStreams f ∧ f.get? (.bare 14) = some 2 ∧
        f.total = 9 ∧ t.Splits f) ∧
      GlyphRecord.readAll (GlyphRecord.writeAll countedRecords) = .ok countedRecords ∧
      ∀ input fused format,
        ((Command.stats input fused format).run
            (.ok (GlyphRecord.writeAll countedRecords.reverse).toUTF8)).printed =
          ((Command.stats input fused format).run
            (.ok (GlyphRecord.writeAll countedRecords).toUTF8)).printed := by
  have hsymbols : countedStreams.mapM NybbleStream.symbols = .ok countedSymbols := by decide
  have hread : GlyphRecord.readAll (GlyphRecord.writeAll countedRecords) = .ok countedRecords := by
    decide +kernel
  have hlines : (Text.lines (GlyphRecord.writeAll countedRecords.reverse).toList).Perm
      (Text.lines (GlyphRecord.writeAll countedRecords).toList) := by
    decide +kernel
  obtain ⟨-, -, hcounts, hlined⟩ := counts_of_streams
  obtain ⟨t, f, ht, hf, hget, htotal, hsplits, -⟩ := hcounts _ _ hsymbols
  obtain ⟨-, hprinted⟩ := hlined _ _ _ hread hlines
  refine ⟨hsymbols, ⟨t, f, ht, hf, hget _, htotal, hsplits⟩, hread, ?_⟩
  exact fun input fused format => (hprinted input fused format).1

end GlyphHints
