import GlyphHints.Hex
import GlyphHints.Proofs.Failing
import Mathlib.Data.List.DropRight

/-!
# Reading written bytes

Reading bytes looks at the characters that are no blanks, so blanks at the ends of a text or
between its parts do not count. Two digits are read for each byte that was written.
-/
namespace GlyphHints

namespace Text

/-- The characters of a text that are no blanks. -/
def inked (text : List Char) : List Char := text.filter fun c => !isBlank c

theorem inked_append (a b : List Char) : inked (a ++ b) = inked a ++ inked b :=
  List.filter_append a b

theorem inked_rdropWhile (text : List Char) : inked (text.rdropWhile isBlank) = inked text := by
  have hblank : inked (text.rtakeWhile isBlank) = [] := by
    apply List.filter_eq_nil_iff.mpr
    intro c hc
    simp [List.mem_rtakeWhile_imp hc]
  calc inked (text.rdropWhile isBlank)
      = inked (text.rdropWhile isBlank) ++ inked (text.rtakeWhile isBlank) := by
        rw [hblank, List.append_nil]
    _ = inked text := by rw [← inked_append, List.rdropWhile_append_rtakeWhile]

variable {sep : List Char}

theorem inked_intercalate (hsep : inked sep = []) (parts : List (List Char)) :
    inked (sep.intercalate parts) = parts.flatMap inked := by
  induction parts with
  | nil => rfl
  | cons a parts ih =>
    cases parts with
    | nil => simp
    | cons b parts =>
      rw [List.intercalate_cons_cons, inked_append, inked_append, hsep, List.append_nil, ih]
      rfl

theorem mem_of_mem_intercalate {c : Char} {parts : List (List Char)}
    (h : c ∈ sep.intercalate parts) : c ∈ sep ∨ ∃ part ∈ parts, c ∈ part := by
  induction parts with
  | nil => simp at h
  | cons a parts ih =>
    cases parts with
    | nil => exact .inr ⟨a, List.mem_cons_self, by simpa using h⟩
    | cons b parts =>
      rw [List.intercalate_cons_cons, List.mem_append, List.mem_append, or_assoc] at h
      rcases h with h | h | h
      · exact .inr ⟨a, List.mem_cons_self, h⟩
      · exact .inl h
      · apply (ih h).imp_right
        intro ⟨part, hpart, hc⟩
        exact ⟨part, List.mem_cons_of_mem a hpart, hc⟩

end Text

namespace Hex

/-- Blanks do not count. -/
theorem decode_congr {a b : List Char} (h : Text.inked a = Text.inked b) :
    decode a = decode b := by
  unfold decode
  rw [← Text.inked, ← Text.inked, h]

/-- The two digits of a byte. -/
def digits (b : UInt8) : List Nat := [b.toNat / 16, b.toNat % 16]

theorem toList_upperHexByte (n : Nat) : (upperHexByte n).toList =
    ((if n < 16 then ['0'] else []) ++ Nat.toDigits 16 n).map Char.toUpper := by
  unfold upperHexByte upperHex
  split_ifs
  · simp
  · exact String.toList_ofList

/-- A byte is written as its two digits. -/
theorem written_of_lt : ∀ n < 256,
    let text := ((if n < 16 then ['0'] else []) ++ Nat.toDigits 16 n).map Char.toUpper
    (Text.inked text).mapM digit = .ok [n / 16, n % 16] ∧ '\n' ∉ text := by
  decide +kernel

theorem mapM_digit_flatMap (bytes : List UInt8) :
    (bytes.flatMap fun b => Text.inked (upperHexByte b.toNat).toList).mapM digit =
      .ok (bytes.flatMap digits) := by
  induction bytes with
  | nil => rfl
  | cons b bytes ih =>
    rw [List.flatMap_cons, List.mapM_append, toList_upperHexByte,
      (written_of_lt b.toNat b.toNat_lt).1, ih]
    rfl

theorem joinDigits_flatMap (bytes : List UInt8) : joinDigits (bytes.flatMap digits) = bytes := by
  induction bytes with
  | nil => rfl
  | cons b bytes ih =>
    have hbyte : 16 * (b.toNat / 16) + b.toNat % 16 = b.toNat := Nat.div_add_mod _ _
    change UInt8.ofNat (16 * (b.toNat / 16) + b.toNat % 16) ::
      joinDigits (bytes.flatMap digits) = b :: bytes
    rw [hbyte, UInt8.ofNat_toNat, ih]

theorem length_flatMap_digits (bytes : List UInt8) :
    (bytes.flatMap digits).length = 2 * bytes.length := by
  induction bytes with
  | nil => rfl
  | cons b bytes ih =>
    rw [List.flatMap_cons, List.length_append, ih, List.length_cons, digits]
    simp only [List.length_cons, List.length_nil]
    omega

theorem inked_encode (bytes : List UInt8) : Text.inked (encode bytes).toList =
    bytes.flatMap fun b => Text.inked (upperHexByte b.toNat).toList := by
  have hspace : Text.inked " ".toList = [] := by decide
  rw [encode, String.toList_intercalate, Text.inked_intercalate hspace, List.map_map,
    List.flatMap_map]
  rfl

theorem decode_encode (bytes : List UInt8) : decode (encode bytes).toList = .ok bytes := by
  have hdigits : (Text.inked (encode bytes).toList).mapM digit = .ok (bytes.flatMap digits) := by
    rw [inked_encode, mapM_digit_flatMap]
  have heven : ¬ (bytes.flatMap digits).length % 2 = 1 := by
    rw [length_flatMap_digits, Nat.mul_mod_right]
    decide
  unfold decode
  rw [← Text.inked, hdigits]
  change (if (bytes.flatMap digits).length % 2 = 1 then _ else _) = _
  rw [if_neg heven, joinDigits_flatMap]
  rfl

theorem newline_not_mem_encode (bytes : List UInt8) : '\n' ∉ (encode bytes).toList := by
  rw [encode, String.toList_intercalate]
  intro h
  cases Text.mem_of_mem_intercalate h with
  | inl h => exact absurd h (by decide)
  | inr h =>
    obtain ⟨part, hpart, hc⟩ := h
    rw [List.map_map] at hpart
    obtain ⟨b, -, rfl⟩ := List.mem_map.mp hpart
    exact (written_of_lt b.toNat b.toNat_lt).2 (toList_upperHexByte b.toNat ▸ hc)

/-! ## What counts in a text -/

/-- A digit in base sixteen, in either case. -/
def IsDigit (c : Char) : Prop :=
  ('0' ≤ c ∧ c ≤ '9') ∨ ('a' ≤ c ∧ c ≤ 'f') ∨ ('A' ≤ c ∧ c ≤ 'F')

/-- Makes a capital digit small. Other characters stay as they are, capitals among them. -/
def foldCase (c : Char) : Char := if 'A' ≤ c ∧ c ≤ 'F' then c.toLower else c

theorem digit_isOk_iff {c : Char} : (∃ n, digit c = .ok n) ↔ IsDigit c := by
  unfold digit IsDigit
  split_ifs <;> simp_all

theorem digit_foldCase (c : Char) : digit (foldCase c) = digit c := by
  have hcapital : ∀ n ≤ 70, 65 ≤ n → digit (Char.ofNat n).toLower = digit (Char.ofNat n) := by
    decide
  unfold foldCase
  split_ifs with hc
  · rw [← Char.ofNat_toNat c]
    exact hcapital c.toNat hc.2 hc.1
  · rfl

theorem decode_eq_bind (text : List Char) : decode text = (Text.inked text).mapM digit >>=
    fun digits => if digits.length % 2 = 1 then .error (.oddDigits digits.length)
      else .ok (joinDigits digits) := by
  unfold decode
  rw [← Text.inked]
  cases (Text.inked text).mapM digit with
  | error fault => rfl
  | ok digits =>
    change (if digits.length % 2 = 1 then _ else _) = if digits.length % 2 = 1 then _ else _
    split_ifs <;> rfl

/-- Neither blanks nor the case of digits count, also where a text is refused. -/
theorem decode_congr_foldCase {a b : List Char}
    (h : (Text.inked a).map foldCase = (Text.inked b).map foldCase) : decode a = decode b := by
  have hfold (text : List Char) :
      (Text.inked text).mapM digit = ((Text.inked text).map foldCase).mapM digit := by
    rw [List.mapM_map]
    congr
    funext c
    exact (digit_foldCase c).symm
  rw [decode_eq_bind, decode_eq_bind, hfold a, hfold b, h]

theorem decode_isOk_iff {text : List Char} : (∃ bytes, decode text = .ok bytes) ↔
    (∀ c ∈ Text.inked text, IsDigit c) ∧ (Text.inked text).length % 2 = 0 := by
  rw [decode_eq_bind]
  constructor
  · rintro ⟨bytes, h⟩
    obtain ⟨digits, hdigits, h⟩ := bind_eq_ok.mp h
    refine ⟨fun c hc => ?_, ?_⟩
    · obtain ⟨n, -, hn⟩ := exists_mem_of_mapM hdigits hc
      exact digit_isOk_iff.mp ⟨n, hn⟩
    · split_ifs at h with hodd
      rw [(mapM_eq_ok_iff.mp hdigits).length_eq]
      omega
  · rintro ⟨hall, heven⟩
    obtain ⟨digits, hdigits⟩ := exists_mapM_eq_ok fun c hc => digit_isOk_iff.mpr (hall c hc)
    refine ⟨joinDigits digits, bind_eq_ok.mpr ⟨digits, hdigits, if_neg ?_⟩⟩
    rw [← (mapM_eq_ok_iff.mp hdigits).length_eq]
    omega

end Hex

end GlyphHints
