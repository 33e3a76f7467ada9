import GlyphHints.CodeTable
import Mathlib.Algebra.Group.Nat.Defs
import Mathlib.Data.List.Induction

/-!
# Bits of numbers and bytes

A number below `2 ^ width` is known by its last `width` bits, and every list of bits is that of
one number. Packing bits into bytes and unpacking the bytes gives the bits back, with the zeros
behind them that fill up the last byte.
-/
namespace GlyphHints.Bits

theorem toNat_concat (bits : List Bool) (b : Bool) :
    toNat (bits ++ [b]) = 2 * toNat bits + b.toNat := by
  simp [toNat]

theorem toNat_lt (bits : List Bool) : toNat bits < 2 ^ bits.length := by
  induction bits using List.reverseRecOn with
  | nil => simp [toNat]
  | append_singleton bits b ih =>
    have hb := b.toNat_le
    rw [toNat_concat, List.length_append, List.length_singleton, Nat.pow_succ]
    omega

/-- The last bit of a number is that of its rest by two. -/
theorem ofNat_concat (n : Nat) (b : Bool) (width : Nat) :
    ofNat (2 * n + b.toNat) (width + 1) = ofNat n width ++ [b] := by
  induction width with
  | zero => cases b <;> simp [ofNat, Nat.testBit_zero]
  | succ width ih =>
    have hhalf : (2 * n + b.toNat) / 2 = n := by
      have hb := b.toNat_le
      omega
    rw [ofNat, ih, ofNat, Nat.testBit_succ, hhalf]
    rfl

theorem ofNat_toNat (bits : List Bool) : ofNat (toNat bits) bits.length = bits := by
  induction bits using List.reverseRecOn with
  | nil => rfl
  | append_singleton bits b ih =>
    rw [toNat_concat, List.length_append, List.length_singleton, ofNat_concat, ih]

theorem toNat_ofNat {n width : Nat} (h : n < 2 ^ width) : toNat (ofNat n width) = n := by
  induction width generalizing n with
  | zero =>
    rw [Nat.pow_zero] at h
    simp [ofNat, toNat, Nat.lt_one_iff.mp h]
  | succ width ih =>
    -- Split off the last bit, where `ofNat` unfolds at the first one.
    obtain ⟨b, hb⟩ : ∃ b : Bool, n = 2 * (n / 2) + b.toNat := by
      rcases Nat.mod_two_eq_zero_or_one n with hmod | hmod
      · exact ⟨false, by simp; omega⟩
      · exact ⟨true, by simp; omega⟩
    rw [Nat.pow_succ] at h
    rw [hb, ofNat_concat, toNat_concat, ih (by omega)]

/-! ## Bytes -/

@[simp] theorem length_ofByte (b : UInt8) : (ofByte b).length = 8 := length_ofNat _ _

@[simp] theorem length_flatMap_ofByte (bytes : List UInt8) :
    (bytes.flatMap ofByte).length = 8 * bytes.length := by
  induction bytes with
  | nil => rfl
  | cons b bytes ih => rw [List.flatMap_cons, List.length_append, ih, length_ofByte,
      List.length_cons, Nat.mul_succ, Nat.add_comm]

/-- A byte made of eight bits holds them. -/
theorem ofByte_ofNat_toNat {bits : List Bool} (h : bits.length = 8) :
    ofByte (UInt8.ofNat (toNat bits)) = bits := by
  have hlt := toNat_lt bits
  rw [h] at hlt
  rw [ofByte, UInt8.toNat_ofNat_of_lt' hlt]
  exact h ▸ ofNat_toNat bits

theorem flatMap_ofByte_toBytesAfter (done : List UInt8) (bits : List Bool) :
    ∃ n < 8, (toBytesAfter done bits).flatMap ofByte =
      done.reverse.flatMap ofByte ++ (bits ++ List.replicate n false) := by
  induction done, bits using toBytesAfter.induct with
  | case1 done => exact ⟨0, by decide, by simp [toBytesAfter]⟩
  | case2 done b₀ b₁ b₂ b₃ b₄ b₅ b₆ b₇ rest ih =>
    obtain ⟨n, hn, h⟩ := ih
    refine ⟨n, hn, ?_⟩
    have hbyte : ofByte (UInt8.ofNat (toNat [b₀, b₁, b₂, b₃, b₄, b₅, b₆, b₇])) =
        [b₀, b₁, b₂, b₃, b₄, b₅, b₆, b₇] := ofByte_ofNat_toNat rfl
    rw [toBytesAfter, h, List.reverse_cons, List.flatMap_append, List.flatMap_singleton, hbyte]
    simp
  | case3 done last hne hmore =>
    have hlt : last.length < 8 := by
      rcases last with _ | ⟨b₀, _ | ⟨b₁, _ | ⟨b₂, _ | ⟨b₃, _ | ⟨b₄, _ | ⟨b₅, _ | ⟨b₆, _ |
        ⟨b₇, rest⟩⟩⟩⟩⟩⟩⟩⟩
      rotate_right
      · exact absurd rfl (hmore b₀ b₁ b₂ b₃ b₄ b₅ b₆ b₇ rest)
      all_goals simp
    have hpos : last.length ≠ 0 := fun h => hne (List.length_eq_zero_iff.mp h)
    refine ⟨8 - last.length, by omega, ?_⟩
    rw [toBytesAfter, List.reverse_cons, List.flatMap_append, List.flatMap_singleton,
      ofByte_ofNat_toNat]
    · simp only [List.length_append, List.length_replicate]
      omega
    · exact hne
    · exact hmore

theorem flatMap_ofByte_toBytes (bits : List Bool) :
    ∃ n < 8, (toBytes bits).flatMap ofByte = bits ++ List.replicate n false :=
  flatMap_ofByte_toBytesAfter [] bits

end GlyphHints.Bits
