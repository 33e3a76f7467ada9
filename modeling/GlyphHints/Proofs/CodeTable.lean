import GlyphHints.Packing
import GlyphHints.Proofs.Bits
import GlyphHints.Proofs.Symbols
import Mathlib.Data.List.Nodup

/-!
# The code is prefix-free and complete

Any fifteen bits begin with exactly one code of the table. So the symbols of a sequence of codes
can be told apart, and reading fails only where the bits end. Looking up each beginning of the
bits in turn finds the same symbol.
-/
namespace GlyphHints

theorem find?_eq_some_of_unique {α : Type} {p : α → Bool} {l : List α} {a : α} (ha : a ∈ l)
    (hp : p a = true) (hunique : ∀ b ∈ l, p b = true → b = a) : l.find? p = some a := by
  cases h : l.find? p with
  | none => exact absurd hp (List.find?_eq_none.mp h a ha)
  | some b => rw [hunique b (List.mem_of_find?_eq_some h) (List.find?_some h)]

/-! ## The table -/

theorem nodup_symbols : (codeTable.map (·.1)).Nodup := by decide +kernel

/-- Every symbol of the table is a nybble or two, as its opcode says. -/
theorem framed_of_mem_codeTable : ∀ e ∈ codeTable,
    e.1.operand?.isSome = hasOperand e.1.opcode ∧ ∀ n ∈ e.1.nybbles, n < 16 := by decide +kernel

/-- The entries whose codes go on with a bit, without it. -/
def entriesAfter (b : Bool) (table : List (Symbol × List Bool)) : List (Symbol × List Bool) :=
  table.filterMap fun
    | (_, []) => none
    | (s, c :: code) => if c = b then some (s, code) else none

/-- A table with nothing to tell apart. -/
def isSingle : List (Symbol × List Bool) → Bool
  | [(_, [])] => true
  | _ => false

/-- Whether this many bits always begin with exactly one code of a table: each bit leads either
to a single symbol or to a smaller table. -/
def separates : Nat → List (Symbol × List Bool) → Bool
  | 0, table => isSingle table
  | n + 1, table => isSingle table || (table.all (!·.2.isEmpty) &&
      separates n (entriesAfter false table) && separates n (entriesAfter true table))

theorem mem_entriesAfter {b : Bool} {table : List (Symbol × List Bool)} {s : Symbol}
    {code : List Bool} : (s, code) ∈ entriesAfter b table ↔ (s, b :: code) ∈ table := by
  constructor
  · intro h
    obtain ⟨⟨t, whole⟩, hwhole, h⟩ := List.mem_filterMap.mp h
    cases whole with
    | nil => contradiction
    | cons c rest =>
      obtain ⟨rfl, rfl, rfl⟩ : c = b ∧ t = s ∧ rest = code := by simpa using h
      exact hwhole
  · intro h
    exact List.mem_filterMap.mpr ⟨_, h, by simp⟩

theorem existsUnique_of_isSingle {table : List (Symbol × List Bool)} (h : isSingle table = true)
    (bits : List Bool) : ∃! e, e ∈ table ∧ e.2 <+: bits := by
  match table, h with
  | [(s, [])], _ =>
    exact ⟨(s, []), by simp, fun e he => List.mem_singleton.mp he.1⟩

theorem existsUnique_of_separates {n : Nat} {table : List (Symbol × List Bool)}
    (h : separates n table = true) {bits : List Bool} (hbits : n ≤ bits.length) :
    ∃! e, e ∈ table ∧ e.2 <+: bits := by
  induction n generalizing table bits with
  | zero => exact existsUnique_of_isSingle h bits
  | succ n ih =>
    rcases Bool.or_eq_true_iff.mp h with hsingle | hsplit
    · exact existsUnique_of_isSingle hsingle bits
    · simp only [Bool.and_eq_true, List.all_eq_true, Bool.not_eq_true', and_assoc] at hsplit
      obtain ⟨hne, hfalse, htrue⟩ := hsplit
      cases bits with
      | nil => simp at hbits
      | cons b bits =>
        -- Only the entries that go on with the first bit count.
        have hb : separates n (entriesAfter b table) = true := by cases b <;> assumption
        obtain ⟨⟨s, code⟩, ⟨hmem, hprefix⟩, hunique⟩ := ih hb (Nat.le_of_succ_le_succ hbits)
        refine ⟨(s, b :: code), ⟨mem_entriesAfter.mp hmem, ?_⟩, ?_⟩
        · exact List.cons_prefix_cons.mpr ⟨rfl, hprefix⟩
        · rintro ⟨t, whole⟩ ⟨ht, hwhole⟩
          cases whole with
          | nil => exact absurd (hne _ ht) (by simp)
          | cons c rest =>
            obtain ⟨rfl, hrest⟩ := List.cons_prefix_cons.mp hwhole
            cases hunique (t, rest) ⟨mem_entriesAfter.mpr ht, hrest⟩
            rfl

theorem separates_codeTable : separates maxCodeLength codeTable = true := by decide +kernel

/-- Fifteen bits begin with a code. -/
theorem complete {bits : List Bool} (h : maxCodeLength ≤ bits.length) :
    ∃ e ∈ codeTable, e.2 <+: bits := (existsUnique_of_separates separates_codeTable h).exists

/-- No two codes are at the front of the same bits. -/
theorem eq_of_prefix {e f : Symbol × List Bool} {bits : List Bool} (he : e ∈ codeTable)
    (hf : f ∈ codeTable) (hebits : e.2 <+: bits) (hfbits : f.2 <+: bits) : e = f := by
  -- Bits that may be too few are filled up.
  have hlong : maxCodeLength ≤ (bits ++ List.replicate maxCodeLength false).length := by simp
  exact (existsUnique_of_separates separates_codeTable hlong).unique
    ⟨he, hebits.trans (List.prefix_append _ _)⟩ ⟨hf, hfbits.trans (List.prefix_append _ _)⟩

namespace Symbol
variable {s : Symbol} {code : List Bool}

theorem code?_eq_some_iff : s.code? = some code ↔ (s, code) ∈ codeTable := by
  constructor
  · intro h
    obtain ⟨⟨t, c⟩, he, rfl⟩ := Option.map_eq_some_iff.mp h
    have hs : t = s := by simpa using List.find?_some he
    exact hs ▸ List.mem_of_find?_eq_some he
  · intro h
    have hfind := find?_eq_some_of_unique (p := fun e : Symbol × List Bool => e.1 == s) h (by simp)
      fun e he hes => List.inj_on_of_nodup_map nodup_symbols he h (by simpa using hes)
    rw [code?, hfind]
    rfl

theorem ofCode?_eq_some_iff :
    ofCode? (Bits.toNat code) code.length = some s ↔ s.code? = some code := by
  rw [code?_eq_some_iff]
  constructor
  · intro h
    obtain ⟨⟨t, c⟩, he, rfl⟩ := Option.map_eq_some_iff.mp h
    obtain ⟨hlength, hvalue⟩ : c.length = code.length ∧ Bits.toNat c = Bits.toNat code := by
      simpa using List.find?_some he
    have hcode : c = code := by
      rw [← Bits.ofNat_toNat c, hlength, hvalue, Bits.ofNat_toNat]
    exact hcode ▸ List.mem_of_find?_eq_some he
  · intro h
    have hfind := find?_eq_some_of_unique
      (p := fun e : Symbol × List Bool =>
        e.2.length == code.length && Bits.toNat e.2 == Bits.toNat code) h (by simp)
      fun e he hes => by
        obtain ⟨hlength, hvalue⟩ : e.2.length = code.length ∧ Bits.toNat e.2 = Bits.toNat code := by
          simpa using hes
        have hcode : e.2 = code := by
          rw [← Bits.ofNat_toNat e.2, hlength, hvalue, Bits.ofNat_toNat]
        exact eq_of_prefix he h List.prefix_rfl (hcode ▸ List.prefix_rfl)
    rw [ofCode?, hfind]
    rfl

end Symbol

namespace Packing
variable {s : Symbol} {bits rest : List Bool}

/-! ## One symbol -/

theorem takeSymbol_eq_ok_iff :
    takeSymbol bits = .ok (s, rest) ↔ ∃ code, s.code? = some code ∧ bits = code ++ rest := by
  unfold takeSymbol
  constructor
  · intro h
    split at h
    · rename_i e he
      cases h
      refine ⟨e.2, Symbol.code?_eq_some_iff.mpr (List.mem_of_find?_eq_some he), ?_⟩
      have hprefix : e.2.isPrefixOf bits = true := by simpa using List.find?_some he
      obtain ⟨rest, rfl⟩ := List.isPrefixOf_iff_prefix.mp hprefix
      rw [List.drop_left]
    · contradiction
  · rintro ⟨code, hcode, rfl⟩
    have hmem := Symbol.code?_eq_some_iff.mp hcode
    have hfind := find?_eq_some_of_unique
      (p := fun e : Symbol × List Bool => e.2.isPrefixOf (code ++ rest)) hmem (by simp)
      fun e he hprefix => eq_of_prefix he hmem (List.isPrefixOf_iff_prefix.mp hprefix)
        (List.prefix_append _ _)
    rw [hfind]
    simp

theorem takeSymbol_append {code : List Bool} (h : s.code? = some code) (rest : List Bool) :
    takeSymbol (code ++ rest) = .ok (s, rest) := takeSymbol_eq_ok_iff.mpr ⟨code, h, rfl⟩

/-- Only the end of the bits keeps a symbol from being read. -/
theorem takeSymbol_eq_error_iff {e : Error} : takeSymbol bits = .error e ↔
    e = .truncatedStream ∧ ∀ f ∈ codeTable, ¬ f.2 <+: bits := by
  unfold takeSymbol
  cases h : codeTable.find? (fun e => e.2.isPrefixOf bits) with
  | some f =>
    have hprefix : f.2.isPrefixOf bits = true := by simpa using List.find?_some h
    simp only [reduceCtorEq, false_iff, not_and, not_forall, not_not]
    exact fun _ => ⟨f, List.mem_of_find?_eq_some h, List.isPrefixOf_iff_prefix.mp hprefix⟩
  | none =>
    have hnone : ∀ f ∈ codeTable, ¬ f.2 <+: bits := fun f hf hprefix =>
      List.find?_eq_none.mp h f hf (List.isPrefixOf_iff_prefix.mpr hprefix)
    have hshort : bits.length < maxCodeLength := by
      by_contra hlong
      obtain ⟨f, hf, hprefix⟩ := complete (Nat.le_of_not_lt hlong)
      exact hnone f hf hprefix
    simp only [hshort, if_true, Except.error.injEq, eq_comm (a := e)]
    exact ⟨fun h => ⟨h, hnone⟩, And.left⟩

/-- Reads bit after bit behind those in `met`, at most `count` more, until the bits read are a
code. -/
def scanSymbol (met : List Bool) : Nat → List Bool → Except Error (Symbol × List Bool)
  | 0, _ => .error .invalidCode
  | _ + 1, [] => .error .truncatedStream
  | count + 1, b :: rest =>
    match Symbol.ofCode? (Bits.toNat (met ++ [b])) (met ++ [b]).length with
    | some s => .ok (s, rest)
    | none => scanSymbol (met ++ [b]) count rest

/-- The first beginning that is a code is the only one. -/
theorem scanSymbol_eq {met : List Bool} {count : Nat} (hcount : met.length + count = maxCodeLength)
    (hmet : ∀ e ∈ codeTable, ¬ e.2 <+: met) (bits : List Bool) :
    scanSymbol met count bits = takeSymbol (met ++ bits) := by
  induction count generalizing met bits with
  | zero =>
    have hlong : maxCodeLength ≤ met.length := by omega
    obtain ⟨e, he, hprefix⟩ := complete hlong
    exact absurd hprefix (hmet e he)
  | succ count ih =>
    cases bits with
    | nil =>
      rw [List.append_nil]
      exact (takeSymbol_eq_error_iff.mpr ⟨rfl, hmet⟩).symm
    | cons b rest =>
      have hassoc : met ++ b :: rest = met ++ [b] ++ rest := by simp
      rw [scanSymbol, hassoc]
      cases h : Symbol.ofCode? (Bits.toNat (met ++ [b])) (met ++ [b]).length with
      | some s =>
        exact (takeSymbol_append (Symbol.ofCode?_eq_some_iff.mp h) rest).symm
      | none =>
        refine ih (by simp; omega) (fun e he hprefix => ?_) rest
        rcases List.prefix_concat_iff.mp hprefix with heq | hshort
        · have hs := Symbol.ofCode?_eq_some_iff.mpr (Symbol.code?_eq_some_iff.mpr he)
          rw [heq, h] at hs
          contradiction
        · exact hmet e he hshort

theorem takeSymbol_eq_scanSymbol (bits : List Bool) :
    takeSymbol bits = scanSymbol [] maxCodeLength bits := by
  have hnil : ∀ e ∈ codeTable, ¬ e.2 <+: [] := by
    intro e he hprefix
    have hpos := length_of_mem_codeTable e he
    have hle := hprefix.length_le
    rw [List.length_nil] at hle
    omega
  exact (scanSymbol_eq (by simp) hnil bits).symm

/-! ## Sequences of symbols -/

theorem takeSymbolsAfter_eq (met : List Symbol) (bits : List Bool) : takeSymbolsAfter met bits =
    (takeSymbol bits >>= fun p =>
      if p.1 = .finish then .ok (p.1 :: met).reverse else takeSymbolsAfter (p.1 :: met) p.2) := by
  rw [takeSymbolsAfter]
  split <;> rename_i h <;> rw [h] <;> rfl

theorem takeSymbolsAfter_append {symbols : List Symbol} {codes : List (List Bool)}
    (hclosed : Symbol.Closed symbols)
    (hcodes : List.Forall₂ (fun s code => s.code? = some code) symbols codes)
    (met : List Symbol) (rest : List Bool) :
    takeSymbolsAfter met (codes.flatten ++ rest) = .ok (met.reverse ++ symbols) := by
  induction hclosed generalizing met codes with
  | finish =>
    obtain ⟨code, _, hcode, hnil, rfl⟩ := List.forall₂_cons_left_iff.mp hcodes
    obtain rfl := List.forall₂_nil_left_iff.mp hnil
    rw [takeSymbolsAfter_eq, List.flatten_cons, List.flatten_nil, List.append_nil,
      takeSymbol_append hcode]
    exact congrArg Except.ok List.reverse_cons
  | @cons s symbols hs _ ih =>
    obtain ⟨code, codes, hcode, hrest, rfl⟩ := List.forall₂_cons_left_iff.mp hcodes
    rw [takeSymbolsAfter_eq, List.flatten_cons, List.append_assoc, takeSymbol_append hcode]
    refine (if_neg hs).trans ((ih hrest (s :: met)).trans ?_)
    simp

theorem exists_of_takeSymbolsAfter {met symbols : List Symbol} {bits : List Bool}
    (h : takeSymbolsAfter met bits = .ok symbols) : ∃ found codes rest,
      symbols = met.reverse ++ found ∧ Symbol.Closed found ∧
      List.Forall₂ (fun s code => s.code? = some code) found codes ∧
      bits = codes.flatten ++ rest := by
  induction met, bits using takeSymbolsAfter.induct with
  | case1 met bits e he =>
    rw [takeSymbolsAfter_eq, he] at h
    contradiction
  | case2 met bits rest hfinish =>
    rw [takeSymbolsAfter_eq, hfinish] at h
    obtain ⟨code, hcode, rfl⟩ := takeSymbol_eq_ok_iff.mp hfinish
    refine ⟨[.finish], [code], rest, ?_, .finish, .cons hcode .nil, by simp⟩
    exact (Except.ok.inj h).symm.trans List.reverse_cons
  | case3 met bits s rest hs hne ih =>
    rw [takeSymbolsAfter_eq, hs] at h
    obtain ⟨found, codes, rest, rfl, hclosed, hcodes, rfl⟩ := ih ((if_neg hne).symm.trans h)
    obtain ⟨code, hcode, rfl⟩ := takeSymbol_eq_ok_iff.mp hs
    exact ⟨s :: found, code :: codes, rest, by simp, .cons hne hclosed, .cons hcode hcodes,
      by simp⟩

/-- Bits are read as symbols exactly if they begin with their codes. -/
theorem takeSymbols_eq_ok_iff {symbols : List Symbol} {bits : List Bool} :
    takeSymbols bits = .ok symbols ↔ Symbol.Closed symbols ∧ ∃ codes rest,
      List.Forall₂ (fun s code => s.code? = some code) symbols codes ∧
      bits = codes.flatten ++ rest := by
  constructor
  · intro h
    obtain ⟨found, codes, rest, rfl, hclosed, hcodes, hbits⟩ := exists_of_takeSymbolsAfter h
    exact ⟨hclosed, codes, rest, hcodes, hbits⟩
  · rintro ⟨hclosed, codes, rest, hcodes, rfl⟩
    exact takeSymbolsAfter_append hclosed hcodes [] rest

theorem takeSymbolsAfter_eq_error {met : List Symbol} {bits : List Bool} {e : Error}
    (h : takeSymbolsAfter met bits = .error e) : e = .truncatedStream := by
  induction met, bits using takeSymbolsAfter.induct with
  | case1 met bits e' he =>
    rw [takeSymbolsAfter_eq, he] at h
    exact Except.error.inj h ▸ (takeSymbol_eq_error_iff.mp he).1
  | case2 met bits rest hfinish =>
    rw [takeSymbolsAfter_eq, hfinish] at h
    contradiction
  | case3 met bits s rest hs hne ih =>
    rw [takeSymbolsAfter_eq, hs] at h
    exact ih ((if_neg hne).symm.trans h)

end Packing

end GlyphHints
