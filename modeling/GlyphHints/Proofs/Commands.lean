import GlyphHints.Command
import GlyphHints.Proofs.CodedStreams
import GlyphHints.Proofs.GlyphFile
import GlyphHints.Proofs.GlyphTask

/-!
# Commands on a file that was compressed

What compressing a glyph file prints or saves is a glyph file again. It holds the records that
could be packed, in their order, and each of them can be listed, counted and decoded in the
format that it was packed in.
-/
namespace GlyphHints

/-! ## Batches -/

namespace Batch
variable {ε α ι : Type} {task : ι → Except ε α} {items before after : List ι}

theorem outputs_run (task : ι → Except ε α) (items : List ι) :
    (run task items).outputs = items.filterMap fun item => (task item).toOption := by
  simp only [run, List.filterMap_map]
  congr
  funext item
  simp only [Function.comp]
  cases task item <;> rfl

theorem mem_outputs_run {a : α} :
    a ∈ (run task items).outputs ↔ ∃ item ∈ items, task item = .ok a := by
  rw [outputs_run, List.mem_filterMap]
  apply exists_congr
  intro item
  cases task item <;> simp [Except.toOption]

theorem outputs_run_of_error {item : ι} {fault : ε} (h : task item = .error fault) :
    (run task (before ++ item :: after)).outputs = (run task (before ++ after)).outputs := by
  simp [outputs_run, h, Except.toOption]

/-- Each item counts as a success or as a failure. -/
theorem succeeded_add_failed (task : ι → Except ε α) (items : List ι) :
    (run task items).succeeded + (run task items).failed = items.length := by
  induction items with
  | nil => rfl
  | cons item items ih =>
    simp only [succeeded, failed, run] at ih ⊢
    rw [List.map_cons, List.length_cons]
    cases task item with
    | error e => exact congrArg (· + 1) ih
    | ok a =>
      rw [List.filterMap_cons, List.filterMap_cons, List.length_cons, Nat.add_right_comm, ih]

theorem complete_run (h : ∀ item ∈ items, ∃ a, task item = .ok a) (label : String) :
    (run task items).complete label = .ok (run task items).outputs := by
  have hfailures : (run task items).failures = [] := by
    simp only [run, List.filterMap_map]
    apply List.filterMap_eq_nil_iff.mpr
    intro item hitem
    obtain ⟨a, ha⟩ := h item hitem
    simp [ha]
  simp [complete, failed, hfailures]

theorem outputs_run_of_mapM {outputs : List α} (h : items.mapM task = .ok outputs) :
    (run task items).outputs = outputs := by
  rw [outputs_run]
  induction mapM_eq_ok_iff.mp h with
  | nil => rfl
  | cons ha hrest ih =>
    rw [List.filterMap_cons, ha, ih (mapM_eq_ok_iff.mpr hrest)]
    rfl

theorem outputs_run_perm (task : ι → Except ε α) {items' : List ι} (h : items'.Perm items) :
    (run task items').outputs.Perm (run task items).outputs := by
  rw [outputs_run, outputs_run]
  exact h.filterMap _

theorem countsText_run_perm (task : ι → Except ε α) {items' : List ι} (h : items'.Perm items) :
    (run task items').countsText = (run task items).countsText ∧
      (run task items').failed = (run task items).failed := by
  have hsucceeded : (run task items').succeeded = (run task items).succeeded :=
    (outputs_run_perm task h).length_eq
  have hfailed : (run task items').failed = (run task items).failed := by
    have := succeeded_add_failed task items
    have := succeeded_add_failed task items'
    have := h.length_eq
    omega
  exact ⟨by rw [countsText, countsText, hsucceeded, hfailed], hfailed⟩

end Batch

/-! ## Packed records -/

namespace GlyphRecord

/-- A record of packed hints that every task on packed hints succeeds on. -/
structure Usable (format : Format) (record : GlyphRecord) : Prop where
  phases : ∃ hints phases, record.unpack format = .ok hints ∧ hints.phases = .ok phases
  listing : ∃ text, record.listing format = .ok text
  splitTally : ∃ tally, record.splitTally format = .ok tally
  fusedTally : ∃ tally, record.fusedTally format = .ok tally

theorem usable_of_program {format : Format} {record : GlyphRecord} {hints : CompressedHints}
    {phases : GlyphPhases} {is : List Instruction} {p : Prolog} {n : Nat}
    (hunpack : record.unpack format = .ok hints) (hphases : hints.phases = .ok phases)
    (hprolog : hints.stream.prolog = .ok (p, n)) (h : hints.stream.HasProgram is) :
    record.Usable format := by
  have hsymbols := h.symbols hprolog
  obtain ⟨text, htext⟩ := h.exists_listing hprolog
  obtain ⟨split, hsplit⟩ : ∃ tally, hints.stream.splitTally = .ok tally :=
    ⟨_, map_eq_ok.mpr ⟨_, hsymbols, rfl⟩⟩
  obtain ⟨fused, hfused⟩ : ∃ tally, hints.stream.fusedTally = .ok tally :=
    ⟨_, map_eq_ok.mpr ⟨_, hsymbols, rfl⟩⟩
  constructor
  · exact ⟨hints, phases, hunpack, hphases⟩
  · exact ⟨record.heading ++ text, bind_eq_ok.mpr ⟨hints, hunpack, bind_eq_ok.mpr
      ⟨text, attempt_eq_ok_iff.mpr htext, rfl⟩⟩⟩
  · exact ⟨split, bind_eq_ok.mpr ⟨hints, hunpack, attempt_eq_ok_iff.mpr hsplit⟩⟩
  · exact ⟨fused, bind_eq_ok.mpr ⟨hints, hunpack, attempt_eq_ok_iff.mpr hfused⟩⟩

theorem usable_of_compress {options : Options} {format : Format} {record out : GlyphRecord}
    (h : compress options format record = .ok out) : out.Usable format := by
  obtain ⟨program, hints, packed, hprogram, hhints, hpacked, rfl⟩ := compress_eq_ok h
  obtain ⟨phases, hphases, hspecs⟩ := Spark.Program.analyze_of_parse hprogram
  obtain ⟨_, hok, hhints⟩ := bind_eq_ok.mp hhints
  obtain rfl := Except.ok.inj (hphases.symm.trans hok)
  have hrange := GlyphPhases.inRange_of_ofSpec hspecs
  obtain ⟨hunpack, hdecode⟩ := CompressedHints.unpack_of_pack hrange hhints hpacked
  have hstream := (CompressedHints.ofPhases_eq_ok hhints).1
  rw [GlyphPhases.encode_eq_compress hrange] at hstream
  obtain ⟨p, n, is, -, hprolog, hbody, hfinish, -⟩ :=
    GlyphPhases.exists_usual_body hrange hstream
  exact usable_of_program (attempt_eq_ok_iff.mpr hunpack) hdecode hprolog
    (.of_body hprolog hbody hfinish)

/-- Counting the hints of records is counting their streams. -/
theorem mapM_walk {α : Type} {count : NybbleStream → Except Error α} {format : Format}
    {records : List GlyphRecord} {hints : List CompressedHints} {each : List α}
    (hunpack : records.mapM (unpack format) = .ok hints)
    (hcount : (hints.map (·.stream)).mapM count = .ok each) :
    records.mapM (fun record => do
      let hints ← record.unpack format
      record.attempt .walk (count hints.stream)) = .ok each := by
  rw [mapM_eq_ok_iff] at hunpack hcount ⊢
  rw [List.forall₂_map_left_iff] at hcount
  induction hunpack generalizing each with
  | nil =>
    cases hcount
    exact .nil
  | cons hfirst _ ih =>
    cases hcount with
    | cons hcounted hrest =>
      exact .cons (bind_eq_ok.mpr ⟨_, hfirst, attempt_eq_ok_iff.mpr hcounted⟩) (ih hrest)

theorem name_of_compress {options : Options} {format : Format} {record out : GlyphRecord}
    (h : compress options format record = .ok out) : out.name = record.name := by
  obtain ⟨_, _, _, -, -, -, rfl⟩ := compress_eq_ok h
  rfl

end GlyphRecord

/-! ## Outcomes -/

/-- The text that a run saves, or else prints. -/
def Outcome.text (o : Outcome) : String :=
  match o.saved with
  | some (_, contents) => contents
  | none => o.printed

/-- A run without a fault whose text, as the contents of a file, has none either when its packed
hints are listed or counted. -/
structure Outcome.Feeds (format : Format) (o : Outcome) : Prop where
  fault : o.fault = none
  disasm : ∀ input, ((Command.disasm input format).run (.ok o.text.toUTF8)).fault = none
  stats : ∀ input fused,
    ((Command.stats input fused format).run (.ok o.text.toUTF8)).fault = none

theorem fault_reportEach {report : GlyphRecord → Except GlyphFault String}
    {records : List GlyphRecord} (h : ∀ record ∈ records, ∃ text, report record = .ok text) :
    (reportEach report records).fault = none := by
  induction records with
  | nil => rfl
  | cons record records ih =>
    obtain ⟨⟨text, htext⟩, hrecords⟩ := List.forall_mem_cons.mp h
    rw [reportEach, htext]
    exact ih hrecords

theorem fault_reportAll {α : Type} {label : String} {task : GlyphRecord → Except GlyphFault α}
    {records : List GlyphRecord} (h : ∀ record ∈ records, ∃ a, task record = .ok a)
    (report : List α → String) : (reportAll label (.run task records) report).fault = none := by
  rw [reportAll, Batch.complete_run h]

theorem printed_reportAll {α : Type} {label : String} {task : GlyphRecord → Except GlyphFault α}
    {records : List GlyphRecord} {each : List α} (h : records.mapM task = .ok each)
    (report : List α → String) :
    (reportAll label (.run task records) report).printed = report each := by
  have hall : ∀ record ∈ records, ∃ a, task record = .ok a := fun record hrecord =>
    let ⟨a, _, ha⟩ := exists_mem_of_mapM h hrecord
    ⟨a, ha⟩
  rw [reportAll, Batch.complete_run hall, Batch.outputs_run_of_mapM h]

/-- A report that does not depend on the order of the outputs is one that does not depend on the
order of the records. -/
theorem reportAll_perm {α : Type} {label : String} {task : GlyphRecord → Except GlyphFault α}
    {records records' : List GlyphRecord} {report : List α → String}
    (hreport : ∀ outputs outputs', outputs'.Perm outputs → report outputs' = report outputs)
    (h : records'.Perm records) :
    (reportAll label (.run task records') report).printed =
        (reportAll label (.run task records) report).printed ∧
      (reportAll label (.run task records') report).fault =
        (reportAll label (.run task records) report).fault := by
  obtain ⟨hcounts, hfailed⟩ := Batch.countsText_run_perm task h
  have houtputs := hreport _ _ (Batch.outputs_run_perm task h)
  simp only [reportAll, Batch.complete, Batch.failureMessage, hfailed, hcounts]
  split_ifs <;> simp [houtputs]

namespace Command
variable {records : List GlyphRecord} {format : Format} {text : String}

theorem fault_runOn_disasm (h : ∀ record ∈ records, record.Usable format) (input : String) :
    ((disasm input format).runOn records).fault = none :=
  fault_reportEach fun record hrecord => (h record hrecord).listing

theorem fault_runOn_stats (h : ∀ record ∈ records, record.Usable format) (input : String)
    (fused : Bool) : ((stats input fused format).runOn records).fault = none := by
  cases fused with
  | true => exact fault_reportAll (fun record hrecord => (h record hrecord).fusedTally) _
  | false => exact fault_reportAll (fun record hrecord => (h record hrecord).splitTally) _

theorem decodeText_toUTF8 (text : String) : decodeText text.toUTF8 = .ok text := by
  rw [decodeText, String.fromUTF8?, String.toUTF8_eq_toByteArray, dif_pos text.isValidUTF8]
  rfl

theorem run_of_readAll (h : GlyphRecord.readAll text = .ok records) (command : Command) :
    command.run (.ok text.toUTF8) = command.runOn records := by
  have hsource : Except.bind (.ok text.toUTF8) decodeText = .ok text := decodeText_toUTF8 text
  simp only [run, hsource, h]

/-! ## Compressing -/

theorem usable_of_mem_outputs {verify : Bool} {out : GlyphRecord}
    (h : out ∈ (compressAll format verify records).outputs) : out.Usable format := by
  obtain ⟨record, -, hrecord⟩ := Batch.mem_outputs_run.mp h
  exact GlyphRecord.usable_of_compress hrecord

theorem readAll_compressedText (h : GlyphRecord.readAll text = .ok records) (verify : Bool) :
    GlyphRecord.readAll (compressedText (compressAll format verify records)) =
      .ok (compressAll format verify records).outputs := by
  apply GlyphRecord.readAll_writeAll_of_names
  intro out hout
  obtain ⟨record, hmem, hrecord⟩ := Batch.mem_outputs_run.mp hout
  rw [GlyphRecord.name_of_compress hrecord]
  exact GlyphRecord.isGlyphName_of_readAll h hmem

theorem runOn_compress (records : List GlyphRecord) (input : String) (output : Option String)
    (format : Format) (verify : Bool) :
    ((compress input output format verify).runOn records).text =
        compressedText (compressAll format verify records) ∧
      ((compress input output format verify).runOn records).fault = none := by
  cases output <;> exact ⟨rfl, rfl⟩

/-- Compressing a glyph file that can be read leaves out the records that fail and changes
nothing else. Its text is read back as the packed records, every task on packed hints succeeds on
each of them, and no listing or counting of that text has a fault. -/
theorem run_compress_feeds {batch : Batch GlyphFault GlyphRecord} {verify : Bool}
    (h : GlyphRecord.readAll text = .ok records)
    (hbatch : compressAll format verify records = batch) :
    batch.outputs = records.filterMap (fun r => (r.compress ⟨false, verify⟩ format).toOption) ∧
      (∀ before record after fault, records = before ++ record :: after →
        record.compress ⟨false, verify⟩ format = .error fault →
          compressedText (compressAll format verify (before ++ after)) = compressedText batch) ∧
      batch.succeeded + batch.failed = records.length ∧
      GlyphRecord.readAll (compressedText batch) = .ok batch.outputs ∧
      (∀ record ∈ batch.outputs, record.Usable format) ∧
      ∀ input output,
        ((compress input output format verify).run (.ok text.toUTF8)).text =
          compressedText batch ∧
        ((compress input output format verify).run (.ok text.toUTF8)).Feeds format := by
  subst hbatch
  have hread := @readAll_compressedText records format text h verify
  refine ⟨Batch.outputs_run _ records, ?_, ?_, hread, fun _ => usable_of_mem_outputs, ?_⟩
  · intro before record after fault hrecords hfault
    rw [hrecords, compressedText, compressedText, compressAll, compressAll,
      Batch.outputs_run_of_error hfault]
  · exact Batch.succeeded_add_failed _ records
  · intro input output
    obtain ⟨htext, hfault⟩ := runOn_compress records input output format verify
    rw [run_of_readAll h]
    refine ⟨htext, hfault, fun packed => ?_, fun packed fused => ?_⟩
    · rw [htext, run_of_readAll hread]
      exact fault_runOn_disasm (fun _ => usable_of_mem_outputs) packed
    · rw [htext, run_of_readAll hread]
      exact fault_runOn_stats (fun _ => usable_of_mem_outputs) packed fused

/-- A comment, a blank line and four records. The second is no program, the third has hints on both
sides of RTGAH, and the last has one at a ppem that no code gets to. -/
def glyphsText : String :=
  "# glyphs\n\nspace: B0 0B\nbroken: 12 34\n" ++
    " high stem :7f f8 00 23 5d 03 00 03 59 00 04 59 00 03 69 a1 01 5a 7f 0b 00 " ++
    "5f 02 72 01 00 0e 2c 5e 14 a2 00 0e 01 5a\r\ntall: 7F F8 00 09 5E 48 A1 01 5A"

def glyphs : List GlyphRecord :=
  [⟨"space", [0xB0, 0x0B]⟩, ⟨"broken", [0x12, 0x34]⟩,
    ⟨"high stem", [0x7F, 0xF8, 0x00, 0x23, 0x5D, 0x03, 0x00, 0x03, 0x59, 0x00, 0x04, 0x59, 0x00,
      0x03, 0x69, 0xA1, 0x01, 0x5A, 0x7F, 0x0B, 0x00, 0x5F, 0x02, 0x72, 0x01, 0x00, 0x0E, 0x2C,
      0x5E, 0x14, 0xA2, 0x00, 0x0E, 0x01, 0x5A]⟩,
    ⟨"tall", [0x7F, 0xF8, 0x00, 0x09, 0x5E, 0x48, 0xA1, 0x01, 0x5A]⟩]

def packedGlyphs : List GlyphRecord :=
  [⟨"space", [0x7F, 0xF6, 0x00, 0x08, 0x30, 0x00, 0x09, 0xD4]⟩,
    ⟨"high stem", [0x7F, 0xF6, 0x00, 0x1A, 0x28, 0x50, 0x36, 0x68, 0xEE, 0x86, 0xA8, 0x27, 0xEC,
      0x3C, 0xCD, 0x7C, 0x1F, 0x78, 0xFD, 0xB4, 0x1A, 0x2C, 0xC9, 0xE5, 0x7A, 0x80]⟩]

theorem run_compress_feeds_glyphs :
    GlyphRecord.readAll glyphsText = .ok glyphs ∧
      (compressAll .huffman true glyphs).outputs = packedGlyphs ∧
      (compressAll .huffman true glyphs).succeeded +
        (compressAll .huffman true glyphs).failed = 4 ∧
      GlyphRecord.readAll (compressedText (compressAll .huffman true glyphs)) =
        .ok packedGlyphs ∧
      (∀ record ∈ packedGlyphs, record.Usable .huffman) ∧
      ∀ input output,
        ((compress input output .huffman true).run (.ok glyphsText.toUTF8)).text =
          compressedText (compressAll .huffman true glyphs) ∧
        ((compress input output .huffman true).run (.ok glyphsText.toUTF8)).Feeds .huffman := by
  have hread : GlyphRecord.readAll glyphsText = .ok glyphs := by decide +kernel
  have hpacked : (compressAll .huffman true glyphs).outputs = packedGlyphs := by decide +kernel
  obtain ⟨-, -, hcount, hagain, husable, hfeeds⟩ := run_compress_feeds hread rfl
  rw [hpacked] at hagain husable
  exact ⟨hread, hpacked, hcount, hagain, husable, hfeeds⟩

end Command

end GlyphHints
