import GlyphHints.GlyphFile
import GlyphHints.Proofs.Hex
import Mathlib.Data.List.TakeDrop

/-!
# Reading glyph files that were written

The name of a record that was read begins and ends with a character that is no blank, does not
begin with `#`, and holds neither a colon nor a line feed. Records with such names are read back
from the lines in which they are written.
-/
namespace GlyphHints

namespace Text
variable {text line : List Char} {c : Char}

/-! ## Lines -/

theorem linesAfter_append (hline : '\n' ∉ line) (begun rest : List Char) :
    linesAfter begun (line ++ '\n' :: rest) = (begun.reverse ++ line) :: linesAfter [] rest := by
  induction line generalizing begun with
  | nil => simp [linesAfter]
  | cons c line ih =>
    have hc : c ≠ '\n' := fun h => hline (h ▸ List.mem_cons_self)
    have hrest : '\n' ∉ line := fun h => hline (List.mem_cons_of_mem c h)
    simp [linesAfter, hc, ih hrest]

/-- Lines that are each ended by a line feed are split into these, and an empty one. -/
theorem lines_flatMap {lines : List (List Char)} (h : ∀ line ∈ lines, '\n' ∉ line) :
    Text.lines (lines.flatMap (· ++ ['\n'])) = lines ++ [[]] := by
  induction lines with
  | nil => rfl
  | cons line lines ih =>
    obtain ⟨hline, hlines⟩ := List.forall_mem_cons.mp h
    rw [List.flatMap_cons, List.append_assoc]
    change linesAfter [] (line ++ '\n' :: lines.flatMap (· ++ ['\n'])) = _
    rw [linesAfter_append hline]
    exact congrArg (line :: ·) (ih hlines)

theorem newline_not_mem_of_mem_linesAfter {begun : List Char} (hbegun : '\n' ∉ begun)
    (h : line ∈ linesAfter begun text) : '\n' ∉ line := by
  induction text generalizing begun with
  | nil =>
    rw [List.mem_singleton.mp h]
    exact mt List.mem_reverse.mp hbegun
  | cons c text ih =>
    unfold linesAfter at h
    split_ifs at h with hc
    · cases List.mem_cons.mp h with
      | inl h => exact h ▸ mt List.mem_reverse.mp hbegun
      | inr h => exact ih List.not_mem_nil h
    · exact ih (List.not_mem_cons_of_ne_of_not_mem (Ne.symm hc) hbegun) h

theorem newline_not_mem_of_mem_lines (h : line ∈ lines text) : '\n' ∉ line :=
  newline_not_mem_of_mem_linesAfter List.not_mem_nil h

/-! ## Trimming -/

theorem trim_sublist (text : List Char) : (trim text).Sublist text :=
  (List.rdropWhile_prefix isBlank _).sublist.trans (List.dropWhile_sublist isBlank)

theorem rdropWhile_append (hc : isBlank c = false) (front rest : List Char) :
    (front ++ c :: rest).rdropWhile isBlank = front ++ c :: rest.rdropWhile isBlank := by
  induction rest using List.reverseRecOn with
  | nil => exact List.rdropWhile_concat_neg isBlank front c (by simp [hc])
  | append_singleton rest d ih =>
    by_cases hd : isBlank d = true
    · rw [List.rdropWhile_concat_pos isBlank rest d hd, ← ih, ← List.rdropWhile_concat_pos
        isBlank (front ++ c :: rest) d hd, List.append_assoc, List.cons_append]
    · rw [List.rdropWhile_concat_neg isBlank rest d hd, ← List.cons_append, ← List.append_assoc,
        List.rdropWhile_concat_neg isBlank _ d hd]

theorem trim_cons (hc : isBlank c = false) (rest : List Char) :
    trim (c :: rest) = c :: rest.rdropWhile isBlank := by
  unfold trim
  rw [List.dropWhile_cons_of_neg (by simp [hc])]
  exact rdropWhile_append hc [] rest

theorem isBlank_of_head?_trim (h : (trim text).head? = some c) : isBlank c = false := by
  obtain ⟨rest, hrest⟩ := List.head?_eq_some_iff.mp h
  obtain ⟨tail, htail⟩ : trim text <+: text.dropWhile isBlank := List.rdropWhile_prefix isBlank _
  have hhead := List.head?_dropWhile_not isBlank text
  rw [← htail, hrest] at hhead
  exact hhead

theorem trim_trim (text : List Char) : trim (trim text) = trim text := by
  cases h : trim text with
  | nil => rfl
  | cons c rest =>
    have hc : isBlank c = false := isBlank_of_head?_trim (congrArg List.head? h)
    have hrest : (c :: rest).rdropWhile isBlank = c :: rest := by
      rw [← h]
      exact List.rdropWhile_idempotent isBlank (text.dropWhile isBlank)
    rw [trim_cons hc, ← List.nil_append (c :: List.rdropWhile isBlank rest),
      ← rdropWhile_append hc, List.nil_append, hrest]

theorem isBlank_of_getLast?_trim (h : (trim text).getLast? = some c) : isBlank c = false := by
  have hne : trim text ≠ [] := by
    rintro hnil
    rw [hnil] at h
    contradiction
  rw [List.getLast?_eq_some_getLast hne, Option.some.injEq] at h
  have hlast : ¬ isBlank ((trim text).getLast hne) = true :=
    List.rdropWhile_last_not isBlank (text.dropWhile isBlank) hne
  rwa [h, Bool.not_eq_true] at hlast

theorem trim_eq_self_iff : trim text = text ↔
    (∀ c, text.head? = some c → isBlank c = false) ∧
      ∀ c, text.getLast? = some c → isBlank c = false := by
  constructor
  · intro h
    exact ⟨fun c hc => isBlank_of_head?_trim (h.symm ▸ hc),
      fun c hc => isBlank_of_getLast?_trim (h.symm ▸ hc)⟩
  · rintro ⟨hhead, hlast⟩
    have hfront : text.dropWhile isBlank = text := by
      cases text with
      | nil => rfl
      | cons c rest => exact List.dropWhile_cons_of_neg (by simp [hhead c rfl])
    have hback : text.rdropWhile isBlank = text := by
      refine List.rdropWhile_eq_self_iff.mpr fun hne => ?_
      rw [Bool.not_eq_true]
      exact hlast _ (List.getLast?_eq_some_getLast hne)
    exact (congrArg (List.rdropWhile isBlank) hfront).trans hback

end Text

/-! ## Names -/

/-- A name that a line can give to a record. -/
structure IsGlyphName (name : List Char) : Prop where
  nonempty : name ≠ []
  trimmed : Text.trim name = name
  noColon : ':' ∉ name
  noNewline : '\n' ∉ name
  noHash : name.head? ≠ some '#'

theorem isGlyphName_iff {name : List Char} : IsGlyphName name ↔
    name ≠ [] ∧ (∀ c, name.head? = some c → Text.isBlank c = false) ∧
      (∀ c, name.getLast? = some c → Text.isBlank c = false) ∧
      ':' ∉ name ∧ '\n' ∉ name ∧ name.head? ≠ some '#' := by
  constructor
  · rintro ⟨hnonempty, htrimmed, hcolon, hnewline, hhash⟩
    obtain ⟨hhead, hlast⟩ := Text.trim_eq_self_iff.mp htrimmed
    exact ⟨hnonempty, hhead, hlast, hcolon, hnewline, hhash⟩
  · rintro ⟨hnonempty, hhead, hlast, hcolon, hnewline, hhash⟩
    exact ⟨hnonempty, Text.trim_eq_self_iff.mpr ⟨hhead, hlast⟩, hcolon, hnewline, hhash⟩

theorem IsGlyphName.trim_append {name : List Char} (h : IsGlyphName name) (rest : List Char) :
    Text.trim (name ++ ':' :: rest) = name ++ ':' :: rest.rdropWhile Text.isBlank := by
  cases name with
  | nil => exact absurd rfl h.nonempty
  | cons c name =>
    have hc : Text.isBlank c = false :=
      Text.isBlank_of_head?_trim (congrArg List.head? h.trimmed)
    rw [List.cons_append, Text.trim_cons hc, Text.rdropWhile_append (by decide), List.cons_append]

namespace GlyphRecord
variable {name hex line : List Char} {record : GlyphRecord} {records : List GlyphRecord}

theorem ofLine_append (hname : IsGlyphName name) {bytes : List UInt8}
    (hbytes : Hex.decode hex = .ok bytes) :
    ofLine (name ++ ':' :: hex) = .ok ⟨String.ofList name, bytes⟩ := by
  have hfree : ∀ c ∈ name, (c != ':') = true := fun c hc =>
    bne_iff_ne.mpr fun h => hname.noColon (h ▸ hc)
  have hspan : (name ++ ':' :: hex).span (· != ':') = (name, ':' :: hex) := by
    rw [List.span_eq_takeWhile_dropWhile, List.takeWhile_append_of_pos hfree,
      List.dropWhile_append_of_pos hfree]
    simp
  have hnonempty : name.isEmpty = false := by simpa using hname.nonempty
  unfold ofLine
  rw [hspan]
  simp [hname.trimmed, hnonempty, hbytes]

theorem isSkipped_append (hname : IsGlyphName name) (rest : List Char) :
    isSkipped (name ++ rest) = false := by
  cases name with
  | nil => exact absurd rfl hname.nonempty
  | cons c name => simpa [isSkipped] using hname.noHash

theorem exists_of_ofLine (h : ofLine line = .ok record) : ∃ front hex,
    line = front ++ ':' :: hex ∧ ':' ∉ front ∧ Text.trim front ≠ [] ∧
      record.name.toList = Text.trim front := by
  unfold ofLine at h
  rw [List.span_eq_takeWhile_dropWhile] at h
  have hline := List.takeWhile_append_dropWhile (p := (· != ':')) (l := line)
  have hcolon : ':' ∉ line.takeWhile (· != ':') := fun hc =>
    absurd (List.mem_takeWhile_imp hc) (by decide)
  have hhead := List.head?_dropWhile_not (· != ':') line
  cases hrest : line.dropWhile (· != ':') with
  | nil => simp [hrest] at h
  | cons c hex =>
    rw [hrest] at h hline hhead
    obtain rfl : c = ':' := by simpa using hhead
    have hname : Text.trim (line.takeWhile (· != ':')) ≠ [] := by
      intro hempty
      simp [hempty] at h
    refine ⟨_, hex, hline.symm, hcolon, hname, ?_⟩
    cases hbytes : Hex.decode hex with
    | error fault => simp [hbytes, hname] at h
    | ok bytes =>
      obtain rfl : (⟨_, bytes⟩ : GlyphRecord) = record := by simpa [hbytes, hname] using h
      exact String.toList_ofList

theorem isGlyphName_of_ofLine (hblank : ∀ c, line.head? = some c → Text.isBlank c = false)
    (hhash : line.head? ≠ some '#') (hnewline : '\n' ∉ line) (h : ofLine line = .ok record) :
    IsGlyphName record.name.toList := by
  obtain ⟨front, hex, rfl, hcolon, hnonempty, hname⟩ := exists_of_ofLine h
  have hsublist := Text.trim_sublist front
  rw [hname]
  refine ⟨hnonempty, Text.trim_trim front, ?_, ?_, ?_⟩
  · exact fun hc => hcolon (hsublist.subset hc)
  · exact fun hc => hnewline (List.mem_append_left _ (hsublist.subset hc))
  · cases front with
    | nil => exact absurd rfl hnonempty
    | cons c front =>
      rw [Text.trim_cons (hblank c rfl)]
      exact hhash

/-! ## Lines of a file -/

theorem ofNumberedLine_eq_some {number : Nat} (hnewline : '\n' ∉ line)
    (h : ofNumberedLine line number = .ok (some record)) : IsGlyphName record.name.toList := by
  simp only [ofNumberedLine] at h
  split_ifs at h with hskipped
  · simp at h
  cases hrecord : ofLine (Text.trim line) with
  | error fault => simp [hrecord] at h
  | ok found =>
    obtain rfl : found = record := by simpa [hrecord] using h
    have hhash : (Text.trim line).head? ≠ some '#' := by
      intro hhash
      simp [isSkipped, hhash] at hskipped
    have hfree : '\n' ∉ Text.trim line := fun hc =>
      hnewline ((Text.trim_sublist line).subset hc)
    exact isGlyphName_of_ofLine (fun c => Text.isBlank_of_head?_trim) hhash hfree hrecord

theorem toList_line (record : GlyphRecord) : record.line.toList =
    record.name.toList ++ ':' :: ' ' :: (Hex.encode record.bytes).toList := by
  simp [line]

theorem newline_not_mem_line (h : IsGlyphName record.name.toList) :
    '\n' ∉ record.line.toList := by
  rw [toList_line]
  intro hc
  rcases List.mem_append.mp hc with hc | hc
  · exact h.noNewline hc
  · simp [Hex.newline_not_mem_encode] at hc

/-- A record is read back from its line. The trim may take the blank behind the colon. -/
theorem ofNumberedLine_line (h : IsGlyphName record.name.toList) (number : Nat) :
    ofNumberedLine record.line.toList number = .ok (some record) := by
  have hblanks : Text.inked ((' ' :: (Hex.encode record.bytes).toList).rdropWhile Text.isBlank) =
      Text.inked (Hex.encode record.bytes).toList := Text.inked_rdropWhile _
  have hbytes := (Hex.decode_congr hblanks).trans (Hex.decode_encode record.bytes)
  have hrecord := ofLine_append h hbytes
  rw [String.ofList_toList] at hrecord
  simp [ofNumberedLine, toList_line, h.trim_append, isSkipped_append h, hrecord]

/-- The number of a line is told only with a fault. -/
theorem ofNumberedLine_eq_ok {n : Nat} {entry : Option GlyphRecord}
    (h : ofNumberedLine line n = .ok entry) (m : Nat) : ofNumberedLine line m = .ok entry := by
  simp only [ofNumberedLine] at h ⊢
  split_ifs at h ⊢ with hskipped
  · exact h
  · cases hrecord : ofLine (Text.trim line) <;> simp_all

/-! ## Files -/

theorem readAll_eq_ok_iff {text : String} : readAll text = .ok records ↔
    ∃ entries, (Text.lines text.toList).mapM (ofNumberedLine · 1) = .ok entries ∧
      entries.filterMap id = records := by
  have hentries : ∀ entries, ((Text.lines text.toList).zipIdx 1).mapM
      (fun e => ofNumberedLine e.1 e.2) = .ok entries ↔
        (Text.lines text.toList).mapM (ofNumberedLine · 1) = .ok entries := by
    intro entries
    conv_rhs => rw [← List.zipIdx_map_fst 1 (Text.lines text.toList)]
    rw [mapM_eq_ok_iff, mapM_eq_ok_iff, List.forall₂_map_left_iff]
    exact ⟨List.Forall₂.imp fun _ _ h => ofNumberedLine_eq_ok h 1,
      List.Forall₂.imp fun e _ h => ofNumberedLine_eq_ok h e.2⟩
  refine bind_eq_ok.trans (exists_congr fun entries => and_congr (hentries entries) ?_)
  exact ⟨Except.ok.inj, congrArg Except.ok⟩

/-- Lines in another order are the same records, in another order. -/
theorem exists_readAll_of_perm {text text' : String} (h : readAll text = .ok records)
    (hlines : (Text.lines text'.toList).Perm (Text.lines text.toList)) :
    ∃ records', readAll text' = .ok records' ∧ records'.Perm records := by
  obtain ⟨entries, hentries, rfl⟩ := readAll_eq_ok_iff.mp h
  obtain ⟨entries', hentries', hperm⟩ := exists_mapM_of_perm hentries hlines
  exact ⟨_, readAll_eq_ok_iff.mpr ⟨entries', hentries', rfl⟩, hperm.filterMap id⟩

theorem isGlyphName_of_readAll {text : String} (h : readAll text = .ok records)
    (hrecord : record ∈ records) : IsGlyphName record.name.toList := by
  obtain ⟨found, hfound, hrecords⟩ := bind_eq_ok.mp h
  cases hrecords
  have hsome : some record ∈ found := by simpa using hrecord
  obtain ⟨⟨line, number⟩, hmem, hline⟩ := exists_of_mem_mapM hfound hsome
  have hnewline := Text.newline_not_mem_of_mem_lines (List.fst_mem_of_mem_zipIdx hmem)
  exact ofNumberedLine_eq_some hnewline hline

/-- The lines of a file of records, without their ends. -/
def writtenLines (records : List GlyphRecord) : List (List Char) :=
  records.map fun record => record.line.toList

theorem lines_writeAll (h : ∀ record ∈ records, IsGlyphName record.name.toList) :
    Text.lines (writeAll records).toList = writtenLines records ++ [[]] := by
  have hfree : ∀ line ∈ writtenLines records, '\n' ∉ line := by
    intro line hline
    obtain ⟨record, hrecord, rfl⟩ := List.mem_map.mp hline
    exact newline_not_mem_line (h record hrecord)
  rw [← Text.lines_flatMap hfree]
  simp [writeAll, writtenLines, String.toList_join, List.flatMap_map]

theorem mapM_ofNumberedLine (h : ∀ record ∈ records, IsGlyphName record.name.toList)
    (start : Nat) : ((writtenLines records ++ [[]]).zipIdx start).mapM
      (fun (line, number) => ofNumberedLine line number) = .ok (records.map some ++ [none]) := by
  induction records generalizing start with
  | nil => rfl
  | cons record records ih =>
    obtain ⟨hrecord, hrecords⟩ := List.forall_mem_cons.mp h
    have hrest := ih hrecords (start + 1)
    simp only [writtenLines, List.map_cons, List.cons_append, List.zipIdx_cons, List.mapM_cons,
      ofNumberedLine_line hrecord] at hrest ⊢
    rw [hrest]
    rfl

theorem readAll_writeAll_of_names (h : ∀ record ∈ records, IsGlyphName record.name.toList) :
    readAll (writeAll records) = .ok records := by
  have hsome : (records.map some ++ [none]).filterMap id = records := by simp
  unfold readAll
  rw [lines_writeAll h, mapM_ofNumberedLine h]
  exact congrArg Except.ok hsome

/-- Records whose names a line can give come back from the text that is written, and no others
are ever read, so reading, writing and reading again changes nothing. Bytes come back from their
digits, and a text of digits counts by what it holds besides blanks, in either case. -/
theorem readAll_writeAll :
    (∀ name, IsGlyphName name ↔ name ≠ [] ∧
      (∀ c, name.head? = some c → Text.isBlank c = false) ∧
      (∀ c, name.getLast? = some c → Text.isBlank c = false) ∧
      ':' ∉ name ∧ '\n' ∉ name ∧ name.head? ≠ some '#') ∧
    (∀ records : List GlyphRecord, (∀ record ∈ records, IsGlyphName record.name.toList) →
      readAll (writeAll records) = .ok records) ∧
    (∀ text records, readAll text = .ok records →
      (∀ record ∈ records, IsGlyphName record.name.toList) ∧
        readAll (writeAll records) = .ok records) ∧
    (∀ bytes, Hex.decode (Hex.encode bytes).toList = .ok bytes) ∧
    (∀ a b, (Text.inked a).map Hex.foldCase = (Text.inked b).map Hex.foldCase →
      Hex.decode a = Hex.decode b) ∧
    ∀ text, (∃ bytes, Hex.decode text = .ok bytes) ↔
      (∀ c ∈ Text.inked text, Hex.IsDigit c) ∧ (Text.inked text).length % 2 = 0 := by
  refine ⟨fun _ => isGlyphName_iff, fun _ => readAll_writeAll_of_names, fun text records h => ?_,
    Hex.decode_encode, fun _ _ => Hex.decode_congr_foldCase, fun _ => Hex.decode_isOk_iff⟩
  have hnames : ∀ record ∈ records, IsGlyphName record.name.toList :=
    fun _ => isGlyphName_of_readAll h
  exact ⟨hnames, readAll_writeAll_of_names hnames⟩

/-- A carriage return and a no-break space inside names, and a glyph without bytes. -/
def oddlyNamed : List GlyphRecord :=
  [⟨"a\rb", [0x7F, 0x0B]⟩, ⟨"é\u00a0#", []⟩, ⟨"x", [0x00, 0xFF]⟩]

def oddlyNamedText : String := "\n# none\r\n a\rb : 7f0 B\r\né\u00a0#:\nx: 00\tfF"

theorem readAll_writeAll_oddlyNamed :
    (∀ record ∈ oddlyNamed, IsGlyphName record.name.toList) ∧
      readAll (writeAll oddlyNamed) = .ok oddlyNamed ∧
      readAll oddlyNamedText = .ok oddlyNamed ∧
      Hex.decode "7f0 B".toList = Hex.decode "7F 0b".toList ∧
      ∃ bytes, Hex.decode "7f0 B".toList = .ok bytes := by
  have hread : readAll oddlyNamedText = .ok oddlyNamed := by decide +kernel
  have hinked : Text.inked "7f0 B".toList = ['7', 'f', '0', 'B'] := by decide
  have hdigits : (∀ c ∈ Text.inked "7f0 B".toList, Hex.IsDigit c) ∧
      (Text.inked "7f0 B".toList).length % 2 = 0 := by
    rw [hinked]
    simp [Hex.IsDigit]
  obtain ⟨-, hwrite, hagain, -, hfold, hdecode⟩ := readAll_writeAll
  obtain ⟨hnames, -⟩ := hagain oddlyNamedText oddlyNamed hread
  exact ⟨hnames, hwrite oddlyNamed hnames, hread, hfold _ _ (by decide), (hdecode _).mpr hdigits⟩

end GlyphRecord

end GlyphHints
