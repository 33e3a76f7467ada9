import GlyphHints.GlyphTask
import GlyphHints.Proofs.RawPacking
import GlyphHints.Proofs.Spark
import GlyphHints.Proofs.Vocabulary

/-!
# Compressing a glyph

Compressing a program that can be read is refused for its least ppem or its least point only,
and what is packed, in either format, unpacks and decodes to the hints of the program.
-/
namespace GlyphHints

namespace GlyphPhases
variable {phases : GlyphPhases}

theorem inRange_of_ofSpec (h : ∀ x ∈ phases.entries, x.2.OfSpec) : phases.InRange :=
  fun x hx => (h x hx).inRange

/-- Of hints such as specs mean, only the least ppem and the least point can be refused. -/
theorem encode_eq_error_of_ofSpec (h : ∀ x ∈ phases.entries, x.2.OfSpec) {verify : Bool}
    {e : Error} (he : phases.encode verify = .error e) : (∃ ppem, e = .basePpemTooLow ppem) ∨
      ∃ value, e = .prologOverflow .basePpem value ∨ e = .prologOverflow .basePoint value := by
  rw [encode_eq_compress (inRange_of_ofSpec h)] at he
  rcases compress_eq_error_of_steps (fun x hx => (h x hx).steps) he with
    ⟨-, rfl⟩ | ⟨-, rfl⟩ | ⟨-, rfl⟩
  · exact .inl ⟨_, rfl⟩
  · exact .inr ⟨_, .inl rfl⟩
  · exact .inr ⟨_, .inr rfl⟩

end GlyphPhases

namespace CompressedHints
variable {phases : GlyphPhases} {options : Options} {hints : CompressedHints}

theorem ofPhases_eq_ok (h : ofPhases phases options = .ok hints) :
    phases.encode options.verify = .ok hints.stream ∧ hints.gray = options.gray := by
  obtain ⟨stream, hstream, rfl⟩ := map_eq_ok.mp h
  exact ⟨hstream, rfl⟩

/-- Hints unpack as they were packed, and decode to what they were made from. -/
theorem unpack_of_pack {format : Format} {bytes : List UInt8} (hrange : phases.InRange)
    (h : ofPhases phases options = .ok hints) (hpack : hints.pack format = .ok bytes) :
    unpack format bytes = .ok hints ∧ hints.phases = .ok phases.reproduction := by
  obtain ⟨hstream, -⟩ := ofPhases_eq_ok h
  rw [GlyphPhases.encode_eq_compress hrange] at hstream
  obtain ⟨p, n, is, -, hp, hbody, hfinish, -⟩ := GlyphPhases.exists_usual_body hrange hstream
  refine ⟨?_, GlyphPhases.decode_compress hrange hstream⟩
  rw [unpack, NybbleStream.unpack_eq_of_body hpack hp hbody hfinish]
  rfl

end CompressedHints

namespace GlyphRecord

theorem attempt_eq_ok_iff {α : Type} {record : GlyphRecord} {step : Step}
    {result : Except Error α} {a : α} : record.attempt step result = .ok a ↔ result = .ok a := by
  cases result <;> simp [attempt, Except.mapError]

theorem compress_eq_ok {options : Options} {format : Format} {record out : GlyphRecord}
    (h : compress options format record = .ok out) : ∃ p hints packed,
      Spark.Program.parse record.bytes = .ok p ∧ p.compress options = .ok hints ∧
      hints.pack format = .ok packed ∧ out = ⟨record.name, packed⟩ := by
  obtain ⟨p, hp, h⟩ := bind_eq_ok.mp h
  obtain ⟨hints, hhints, h⟩ := bind_eq_ok.mp h
  obtain ⟨packed, hpacked, h⟩ := bind_eq_ok.mp h
  exact ⟨p, hints, packed, attempt_eq_ok_iff.mp hp, attempt_eq_ok_iff.mp hhints,
    attempt_eq_ok_iff.mp hpacked, (Except.ok.inj h).symm⟩

/-- A program that can be read can be analyzed, and compressing it is refused at most for its
least ppem or its least point. The record it is compressed to keeps the name of the glyph and
unpacks to hints as gray as the options or the program ask for, which decode to the phases of
the program. -/
theorem compress_faithful {bytes : List UInt8} {p : Spark.Program}
    (h : Spark.Program.parse bytes = .ok p) :
    ∃ phases, p.analyze = .ok phases ∧
      (∀ options e, p.compress options = .error e → (∃ ppem, e = .basePpemTooLow ppem) ∨
        ∃ value, e = .prologOverflow .basePpem value ∨ e = .prologOverflow .basePoint value) ∧
      ∀ name options format record, compress options format ⟨name, bytes⟩ = .ok record →
        record.name = name ∧ ∃ hints, CompressedHints.unpack format record.bytes = .ok hints ∧
          hints.gray = (options.gray || p.gray) ∧ hints.phases = .ok phases.reproduction := by
  obtain ⟨phases, hphases, hspecs⟩ := Spark.Program.analyze_of_parse h
  refine ⟨phases, hphases, fun options e he => ?_, fun name options format record hrecord => ?_⟩
  · rcases bind_eq_error.mp he with he | ⟨_, hok, he⟩
    · rw [hphases] at he
      contradiction
    · obtain rfl := Except.ok.inj (hphases.symm.trans hok)
      exact GlyphPhases.encode_eq_error_of_ofSpec hspecs (map_eq_error.mp he)
  · obtain ⟨q, hints, packed, hq, hhints, hpacked, rfl⟩ := compress_eq_ok hrecord
    obtain rfl := Except.ok.inj (h.symm.trans hq)
    obtain ⟨_, hok, hhints⟩ := bind_eq_ok.mp hhints
    obtain rfl := Except.ok.inj (hphases.symm.trans hok)
    obtain ⟨hunpack, hdecode⟩ := CompressedHints.unpack_of_pack
      (GlyphPhases.inRange_of_ofSpec hspecs) hhints hpacked
    exact ⟨rfl, hints, hunpack, (CompressedHints.ofPhases_eq_ok hhints).2, hdecode⟩

/-- A program with hints on both axes and on both sides of RTGAH. -/
def sample : GlyphRecord where
  name := "sample"
  bytes := [0xB0, 0xF8, 0x7F, 0x00, 0x17, 0x5F, 0x02, 0x71, 0x02, 0x00, 0x03, 0x29, 0x00, 0x04,
    0x3A, 0x7F, 0x0B, 0x00, 0xA2, 0x00, 0x0E, 0x01, 0x5A]

def samplePacked : GlyphRecord where
  name := "sample"
  bytes := [0x7F, 0xF7, 0x00, 0x10, 0x18, 0x50, 0x38, 0x3F, 0xA8, 0xFE, 0x37, 0x99, 0xBC, 0x7E,
    0xDA, 0xA0]

def sampleProgram : Spark.Program :=
  ⟨false, .new, [.setDeltaShift 2, .delta ⟨.deltaP, 2, [(some 3, [⟨0x29⟩]), (some 4, [⟨0x3A⟩])]⟩,
    .rtgah, .setAxis .y, .delta ⟨.strokeDelta, 1, [(some 14, [⟨0x5A⟩])]⟩]⟩

theorem compress_faithful_sample :
    Spark.Program.parse sample.bytes = .ok sampleProgram ∧
    compress ⟨true, true⟩ .huffman sample = .ok samplePacked ∧
    ∃ phases, sampleProgram.analyze = .ok phases ∧ ∃ hints,
      CompressedHints.unpack .huffman samplePacked.bytes = .ok hints ∧ hints.gray = true ∧
        hints.phases = .ok phases.reproduction := by
  have hparse : Spark.Program.parse sample.bytes = .ok sampleProgram := by decide +kernel
  have hcompress : compress ⟨true, true⟩ .huffman sample = .ok samplePacked := by decide +kernel
  obtain ⟨phases, hphases, -, hrecord⟩ := compress_faithful hparse
  exact ⟨hparse, hcompress, phases, hphases, (hrecord _ _ _ _ hcompress).2⟩

end GlyphRecord

end GlyphHints
