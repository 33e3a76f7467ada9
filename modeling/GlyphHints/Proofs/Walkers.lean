import GlyphHints.Proofs.Decoding
import GlyphHints.Proofs.Packing
import GlyphHints.Proofs.Symbols
import GlyphHints.Tally

/-!
# The walkers of a stream agree

A body is walked by a cursor, as a whole, and opcode by opcode for its symbols. The cursor gives
the instructions of the walk in their places, and then the error of the walk if it has one. The
symbols of a body that is read to its end are those instructions, and where the instructions end
in an error and the symbols do not, the error is one of meaning and not of framing.
-/
namespace GlyphHints

namespace Cursor

/-- A cursor gives these items, and then no more. -/
inductive Yields : Cursor → List Item → Prop
  | stop {c : Cursor} : c.next? = none → Yields c []
  | item {c d : Cursor} {item : Item} {items : List Item} :
      c.next? = some (item, d) → Yields d items → Yields c (item :: items)

theorem Yields.unique {c : Cursor} {items others : List Item} (h : c.Yields items)
    (k : c.Yields others) : items = others := by
  induction h generalizing others with
  | stop hstop =>
    cases k with
    | stop => rfl
    | item hnext => rw [hstop] at hnext; contradiction
  | item hnext _ ih =>
    cases k with
    | stop hstop => rw [hstop] at hnext; contradiction
    | item hnext' k =>
      rw [hnext] at hnext'
      obtain ⟨rfl, rfl⟩ := Prod.mk.inj (Option.some.inj hnext')
      rw [ih k]

/-- Each instruction begins where the one in front of it ends, and only the last item ends the
program or is an error. -/
inductive Contiguous : Nat → List Item → Prop
  | fault {n : Nat} (e : Error) : Contiguous n [.error e]
  | finish {n : Nat} : Contiguous n [.ok (n, .finish)]
  | cons {n : Nat} {i : Instruction} {items : List Item} :
      i ≠ .finish → Contiguous (n + i.width) items → Contiguous n (.ok (n, i) :: items)

variable {nybbles rest : List Nat} {n : Nat}

theorem next?_of_error {e : Error} (h : Instruction.read (nybbles.drop n) = .error e) :
    next? ⟨nybbles, n, false⟩ = some (.error e, ⟨nybbles, n, true⟩) := by simp [next?, h]

theorem next?_of_nybbles {i : Instruction} (h : nybbles.drop n = i.nybbles ++ rest) :
    next? ⟨nybbles, n, false⟩ =
      some (.ok (n, i), ⟨nybbles, n + i.width, decide (i = .finish)⟩) := by
  simp [next?, h, Instruction.read_nybbles]

theorem drop_width {i : Instruction} (h : nybbles.drop n = i.nybbles ++ rest) :
    nybbles.drop (n + i.width) = rest := by
  rw [← List.drop_drop, h]
  exact List.drop_left

end Cursor

namespace Walk
variable {n : Nat} {body : List Nat} {is : List Instruction} {i : Instruction}
  {fault : Option Error}

theorem located_foldl (is : List Instruction) (n : Nat) (met : List (Nat × Instruction)) :
    (is.foldl (fun (p : Nat × List (Nat × Instruction)) i => (p.1 + i.width, (p.1, i) :: p.2))
      (n, met)).2.reverse = met.reverse ++ located n is := by
  induction is generalizing n met with
  | nil => exact (List.append_nil _).symm
  | cons i is ih =>
    have hlocated : located n (i :: is) = [(n, i)].reverse ++ located (n + i.width) is := ih _ _
    rw [List.foldl_cons, ih, hlocated, ← List.append_assoc, ← List.reverse_append]
    rfl

theorem located_cons (n : Nat) (i : Instruction) (is : List Instruction) :
    located n (i :: is) = (n, i) :: located (n + i.width) is := located_foldl is _ [(n, i)]

/-- The instructions of a walk in their places, and its error if it has one. -/
def items (w : Walk) (start : Nat) : List Cursor.Item :=
  (located start w.instructions).map .ok ++ w.fault.toList.map .error

theorem items_cons : items ⟨i :: is, fault⟩ n = .ok (n, i) :: items ⟨is, fault⟩ (n + i.width) := by
  rw [items, located_cons]
  rfl

theorem error_mem_items {w : Walk} {e : Error} : .error e ∈ w.items n ↔ w.fault = some e := by
  simp [items]

namespace Meets

theorem contiguous (h : Meets body is fault) (n : Nat) :
    Cursor.Contiguous n (items ⟨is, fault⟩ n) := by
  induction h generalizing n with
  | fault => exact .fault _
  | finish => exact .finish
  | cons hi _ ih =>
    rw [items_cons]
    exact .cons hi (ih _)

theorem yields {nybbles : List Nat} (h : Meets body is fault) (hbody : nybbles.drop n = body) :
    Cursor.Yields ⟨nybbles, n, false⟩ (items ⟨is, fault⟩ n) := by
  induction h generalizing n with
  | fault hread => exact .item (Cursor.next?_of_error (hbody ▸ hread)) (.stop rfl)
  | finish => exact .item (Cursor.next?_of_nybbles hbody) (.stop rfl)
  | cons hi _ ih =>
    have hnext := Cursor.next?_of_nybbles hbody
    rw [decide_eq_false hi] at hnext
    rw [items_cons]
    exact .item hnext (ih (Cursor.drop_width hbody))

/-- A walk comes to the end of the program without an error, and no further. -/
theorem of_finish {place : Nat} (h : Meets body is fault)
    (hplace : .ok (place, .finish) ∈ items ⟨is, fault⟩ n) :
    fault = none ∧ place + 1 = n + (Instruction.writeAll is).length := by
  induction h generalizing n with
  | fault => simp [items, located] at hplace
  | finish =>
    obtain rfl : place = n := by simpa [items, located] using hplace
    exact ⟨rfl, rfl⟩
  | @cons i rest is fault hi _ ih =>
    rw [items_cons] at hplace
    cases hplace with
    | head => exact absurd rfl hi
    | tail _ hplace =>
      obtain ⟨hfault, hend⟩ := ih hplace
      refine ⟨hfault, hend.trans ?_⟩
      rw [Instruction.writeAll_cons, List.length_append, Nat.add_assoc]
      rfl

theorem exists_rest (h : Meets body is fault) : ∃ rest, body = Instruction.writeAll is ++ rest := by
  induction h with
  | fault => exact ⟨_, rfl⟩
  | finish rest => exact ⟨rest, rfl⟩
  | cons _ _ ih =>
    obtain ⟨rest, rfl⟩ := ih
    exact ⟨rest, by rw [Instruction.writeAll_cons, List.append_assoc]⟩

theorem exists_before (h : Meets body is none) :
    ∃ before, is = before ++ [.finish] ∧ Instruction.finish ∉ before := by
  generalize hfault : (none : Option Error) = fault at h
  induction h with
  | fault => contradiction
  | finish => exact ⟨[], rfl, List.not_mem_nil⟩
  | @cons i _ _ _ hi _ ih =>
    obtain ⟨before, rfl, hbefore⟩ := ih hfault
    exact ⟨i :: before, rfl, List.not_mem_cons_of_ne_of_not_mem hi.symm hbefore⟩

/-- A body that is read to its end is split into its instructions. -/
theorem split (h : Meets body is none) :
    Symbol.split body = .ok (is.map Instruction.symbol) := by
  obtain ⟨rest, rfl⟩ := h.exists_rest
  obtain ⟨before, rfl, hbefore⟩ := h.exists_before
  exact Instruction.split_writeAll hbefore rest

/-- Where a body is split that cannot be read, its nybbles are framed as instructions are. -/
theorem isOfMeaning {symbols : List Symbol} {e : Error} (h : Meets body is (some e))
    (hsplit : Symbol.split body = .ok symbols) (hlt : ∀ v ∈ body, v < 16) : e.IsOfMeaning := by
  generalize hfault : some e = fault at h
  induction h generalizing symbols with
  | fault hread =>
    cases hfault
    rcases Instruction.read_eq_error hlt hread with ⟨-, rfl | ⟨opcode, hop, rfl⟩⟩ | hmeaning
    · contradiction
    · simp [Symbol.split, Symbol.splitAfter, hop] at hsplit
    · exact hmeaning
  | finish => contradiction
  | @cons i rest is fault hi _ ih =>
    have hsymbol : i.symbol ≠ .finish := fun he => hi (Instruction.symbol_eq_finish.mp he)
    rw [← i.nybbles_symbol, Symbol.split,
      Symbol.splitAfter_nybbles hsymbol i.isFramed_symbol] at hsplit
    obtain ⟨found, behind, -, hclosed, hframed, hrest⟩ := Symbol.exists_of_splitAfter hsplit
    have hlater := Symbol.split_eq_ok_iff.mpr ⟨hclosed, hframed, behind, hrest⟩
    exact ih hlater (fun v hv => hlt v (List.mem_append_right _ hv)) hfault

end Meets

end Walk

namespace NybbleStream
variable {s : NybbleStream} {p : Prolog} {n : Nat}

/-- A walk comes to the end of the program if instructions stand there of which the last one alone
ends it. -/
theorem walk_eq_complete_iff {is : List Instruction} : s.walk = .ok ⟨is, none⟩ ↔
    ∃ p n before rest, s.prolog = .ok (p, n) ∧ is = before ++ [.finish] ∧ .finish ∉ before ∧
      s.nybbles.drop n = Instruction.writeAll is ++ rest := by
  constructor
  · intro hwalk
    obtain ⟨p, n, hp, hmeets⟩ := meets_of_walk hwalk
    obtain ⟨before, his, hbefore⟩ := hmeets.exists_before
    obtain ⟨rest, hrest⟩ := hmeets.exists_rest
    exact ⟨p, n, before, rest, hp, his, hbefore, hrest⟩
  · rintro ⟨p, n, before, rest, hp, rfl, hbefore, hrest⟩
    refine walk_eq_ok_iff.mpr ⟨p, n, hp, ?_⟩
    rw [hrest, Walk.ofBody_writeAll_finish hbefore]

theorem exists_listing_iff :
    (∃ text, s.listing = .ok text) ↔ ∃ is, s.walk = .ok ⟨is, none⟩ := by
  constructor
  · rintro ⟨text, h⟩
    obtain ⟨lines, hlines, -⟩ := map_eq_ok.mp h
    obtain ⟨_, -, h⟩ := bind_eq_ok.mp hlines
    obtain ⟨⟨is, fault⟩, hwalk, h⟩ := bind_eq_ok.mp h
    cases fault with
    | some e => contradiction
    | none => exact ⟨is, hwalk⟩
  · rintro ⟨is, hwalk⟩
    obtain ⟨p, n, hprolog, -⟩ := walk_eq_ok_iff.mp hwalk
    have hlines : ∃ lines, s.listingLines = .ok lines :=
      ⟨_, bind_eq_ok.mpr ⟨_, hprolog, bind_eq_ok.mpr ⟨_, hwalk, rfl⟩⟩⟩
    obtain ⟨lines, hlines⟩ := hlines
    exact ⟨_, map_eq_ok.mpr ⟨lines, hlines, rfl⟩⟩

theorem symbols_of_walk {is : List Instruction} (h : s.walk = .ok ⟨is, none⟩) :
    s.symbols = .ok (is.map Instruction.symbol) := by
  obtain ⟨p, n, hprolog, hmeets⟩ := meets_of_walk h
  exact symbols_eq_ok_iff.mpr ⟨p, n, hprolog, hmeets.split⟩

/-- A cursor gives what the walk of a stream meets, one item behind the other. If it comes to the
end of the program, the symbols are the instructions up to there; if the symbols are cut off, so
are the instructions; and if the instructions alone end in an error, they do for what the nybbles
mean. So what is decoded can be listed, and what is listed can be counted. -/
theorem walkers_agree (hp : s.prolog = .ok (p, n)) :
    ∃ c w, s.cursor = .ok c ∧ s.walk = .ok w ∧
      (∀ items, c.Yields items ↔ items = w.items n) ∧ Cursor.Contiguous n (w.items n) ∧
      (∀ place, .ok (place, .finish) ∈ w.items n →
        s.symbols = .ok (w.instructions.map Instruction.symbol) ∧
        s.nybbles.take n ++ (w.instructions.map Instruction.symbol).flatMap Symbol.nybbles =
          s.nybbles.take (place + 1)) ∧
      (s.symbols = .error .truncatedStream → ∃ e, .error e ∈ w.items n) ∧
      (∀ symbols e, s.symbols = .ok symbols → .error e ∈ w.items n → e.IsOfMeaning) ∧
      (∀ phases, s.decode = .ok phases → ∃ text, s.listing = .ok text) ∧
      ∀ text, s.listing = .ok text → (∃ symbols, s.symbols = .ok symbols) ∧
        (∃ tally, s.splitTally = .ok tally) ∧ ∃ tally, s.fusedTally = .ok tally := by
  have hwalk : s.walk = .ok (Walk.ofBody (s.nybbles.drop n)) :=
    walk_eq_ok_iff.mpr ⟨p, n, hp, rfl⟩
  have hmeets := Walk.meets_ofBody (s.nybbles.drop n)
  generalize Walk.ofBody (s.nybbles.drop n) = w at hwalk hmeets
  have hyields := hmeets.yields rfl
  refine ⟨⟨s.nybbles, n, false⟩, w, map_eq_ok.mpr ⟨_, hp, rfl⟩, hwalk, ?_, hmeets.contiguous n,
    ?_, ?_, ?_, ?_, ?_⟩
  · intro items
    constructor
    · exact fun h => h.unique hyields
    · rintro rfl
      exact hyields
  · intro place hplace
    obtain ⟨instructions, fault⟩ := w
    obtain ⟨rfl, hend⟩ := hmeets.of_finish hplace
    obtain ⟨rest, hbody⟩ := hmeets.exists_rest
    refine ⟨symbols_of_walk hwalk, ?_⟩
    rw [Instruction.flatMap_nybbles_symbol, hend, List.take_add, hbody, List.take_left]
  · intro hsymbols
    obtain ⟨instructions, fault⟩ := w
    cases fault with
    | none =>
      rw [symbols_of_walk hwalk] at hsymbols
      contradiction
    | some e => exact ⟨e, Walk.error_mem_items.mpr rfl⟩
  · intro symbols e hsymbols he
    rw [Walk.error_mem_items.mp he] at hmeets
    obtain ⟨_, _, hp', hsplit⟩ := symbols_eq_ok_iff.mp hsymbols
    cases hp.symm.trans hp'
    exact hmeets.isOfMeaning hsplit fun v hv => s.nybbles_lt v (List.mem_of_mem_drop hv)
  · intro phases h
    obtain ⟨_, _, is, _, -, hread, -, -⟩ := decode_eq_ok_iff.mp h
    exact exists_listing_iff.mpr ⟨is, hread⟩
  · intro text h
    obtain ⟨is, hread⟩ := exists_listing_iff.mp ⟨text, h⟩
    have hsymbols := symbols_of_walk hread
    exact ⟨⟨_, hsymbols⟩, ⟨_, map_eq_ok.mpr ⟨_, hsymbols, rfl⟩⟩, ⟨_, map_eq_ok.mpr ⟨_, hsymbols, rfl⟩⟩⟩

/-- A stream with a reserved opcode behind an operand of 15. -/
def reservedMidway : NybbleStream := ⟨[3, 8, 0, 0, 0, 2, 15, 7, 15], by decide⟩

theorem prolog_reservedMidway : reservedMidway.prolog = .ok (⟨3, 8, 9, 0⟩, 5) := rfl

theorem walk_reservedMidway :
    reservedMidway.walk = .ok ⟨[.setRepeat 15], some (.reservedOpcode 7)⟩ := by decide +kernel

theorem symbols_reservedMidway :
    reservedMidway.symbols = .ok [.fused 2 15, .bare 7, .finish] := by decide +kernel

theorem walkers_agree_reservedMidway :
    reservedMidway.prolog = .ok (⟨3, 8, 9, 0⟩, 5) ∧
      (∃ c, reservedMidway.cursor = .ok c ∧
        c.Yields [.ok (5, .setRepeat 15), .error (.reservedOpcode 7)]) ∧
      reservedMidway.symbols = .ok [.fused 2 15, .bare 7, .finish] ∧
      (Error.reservedOpcode 7).IsOfMeaning ∧
      noHints.prolog = .ok (⟨3, 0, 9, 0⟩, 5) ∧
      (∃ c, noHints.cursor = .ok c ∧ c.Yields [.ok (5, .rtgah), .ok (6, .finish)]) ∧
      noHints.symbols = .ok [.bare 14, .finish] ∧ ∃ text, noHints.listing = .ok text := by
  obtain ⟨c, w, hc, hw, hyields, -, -, -, hmeaning, -, -⟩ := walkers_agree prolog_reservedMidway
  obtain rfl := Except.ok.inj (hw.symm.trans walk_reservedMidway)
  have hprolog : noHints.prolog = .ok (⟨3, 0, 9, 0⟩, 5) := rfl
  obtain ⟨d, v, hd, hv, hyields', -, hend, -, -, hlisting, -⟩ := walkers_agree hprolog
  have hwalk : noHints.walk = .ok ⟨[.rtgah, .finish], none⟩ := by decide +kernel
  have hdecode : noHints.decode = .ok ⟨some .empty, .empty⟩ := by decide +kernel
  obtain rfl := Except.ok.inj (hv.symm.trans hwalk)
  have hfinish : .ok (6, .finish) ∈ Walk.items ⟨[.rtgah, .finish], none⟩ 5 := by decide
  exact ⟨rfl, ⟨c, hc, (hyields _).mpr rfl⟩, symbols_reservedMidway,
    hmeaning _ _ symbols_reservedMidway (by decide), rfl, ⟨d, hd, (hyields' _).mpr rfl⟩,
    (hend 6 hfinish).1, hlisting _ hdecode⟩

end NybbleStream

end GlyphHints
