import Mathlib.Algebra.Group.Nat.Defs
import Mathlib.Algebra.Ring.Int.Defs
import Shroud.Proofs.Representation

/-!
# Types of number literals

A number literal stands for an integer of 256 bits, signed or not. Its declared type is the narrowest one in whole bytes
that has the integer in its range and is signed exactly if the integer is negative.

**Bits.** How many bits an integer needs is read off its digits, and whether it is in the range of a type is decided by
comparing it with powers of two. Both agree at every width (`inRange_iff_bitsNeeded`).

**Widths** are rounded up to whole bytes, so a width in whole bytes is large enough exactly if it is not less than that of
the literal (`literalWidth_le_iff`).

**Results.** `literal_narrowest`: which integers have literals, and the declared types of these.
-/

namespace Shroud

theorem bitLength_le_iff {n k : Nat} : bitLength n ≤ k ↔ n < 2 ^ k := by
  unfold bitLength
  split
  · rename_i zero
    rw [zero]
    exact iff_of_true (Nat.zero_le k) (Nat.two_pow_pos k)
  · rename_i positive
    exact Nat.log2_lt positive

/-- A negative integer is one of so many bits if its absolute value is at most the power of two one bit below. -/
theorem bitsNeeded_le_iff_of_neg {v : Int} (negative : v < 0) {bits : Nat} :
    bitsNeeded v ≤ bits + 1 ↔ v.natAbs ≤ 2 ^ bits := by
  have positive : 1 ≤ bitLength v.natAbs := by
    rw [Nat.one_le_iff_ne_zero]
    intro none
    have := bitLength_le_iff.mp none.le
    omega
  unfold bitsNeeded
  simp only [negative, if_true]
  split
  · rename_i power
    have exponents : v.natAbs ≤ 2 ^ bits ↔ bitLength v.natAbs - 1 ≤ bits := by
      conv_lhs => rw [power]
      exact Nat.pow_le_pow_iff_right (by decide)
    omega
  · rename_i other
    -- the bound itself is excluded, because its digits are one more than its exponent
    have apart : v.natAbs ≠ 2 ^ bits := by
      intro power
      have digits : bitLength (2 ^ bits) = bits + 1 := by
        refine Nat.le_antisymm (bitLength_le_iff.mpr (Nat.pow_lt_pow_right (by decide) (Nat.lt_succ_self bits))) ?_
        rw [Nat.succ_le_iff, ← Nat.not_le, bitLength_le_iff]
        exact lt_irrefl _
      rw [power, digits] at other
      exact other rfl
    have digits : bitLength v.natAbs ≤ bits ↔ v.natAbs < 2 ^ bits := bitLength_le_iff
    omega

/-- An integer is in the range of the types of its sign that have the bits it needs. -/
theorem inRange_iff_bitsNeeded {v : Int} {bits : Nat} (positive : 0 < bits) :
    inRange (decide (v < 0)) bits v = true ↔ bitsNeeded v ≤ bits := by
  by_cases negative : v < 0
  · obtain ⟨k, rfl⟩ : ∃ k, bits = k + 1 := ⟨bits - 1, by omega⟩
    have power : (0 : Int) < Nat.pow 2 k := Int.natCast_pos.mpr (Nat.two_pow_pos k)
    have size : (v.natAbs : Int) ≤ Nat.pow 2 k ↔ v.natAbs ≤ 2 ^ k := Int.ofNat_le
    simp only [inRange, negative, decide_true, if_true, Bool.and_eq_true, decide_eq_true_eq, Nat.add_sub_cancel]
    rw [bitsNeeded_le_iff_of_neg negative, ← size]
    omega
  · obtain ⟨n, rfl⟩ := Int.eq_ofNat_of_zero_le (Int.not_lt.mp negative)
    have needed : bitsNeeded n = bitLength n := by simp [bitsNeeded]
    have size : (n : Int) < Nat.pow 2 bits ↔ n < 2 ^ bits := Int.ofNat_lt
    simp only [inRange, negative, decide_false, Bool.false_eq_true, if_false, Bool.and_eq_true, decide_eq_true_eq]
    rw [needed, bitLength_le_iff, size]
    exact and_iff_right (Int.natCast_nonneg n)

/-- Rounding up to whole bytes is what makes a width the least one in whole bytes. -/
theorem literalWidth_le_iff {v : Int} {bits : Nat} (positive : 0 < bits) (bytes : 8 ∣ bits) :
    literalWidth v ≤ bits ↔ inRange (decide (v < 0)) bits v = true := by
  rw [inRange_iff_bitsNeeded positive]
  unfold literalWidth
  omega

theorem literalWidth_bytes (v : Int) : 0 < literalWidth v ∧ 8 ∣ literalWidth v := by
  unfold literalWidth
  omega

theorem isLiteralValue_iff (v : Int) : isLiteralValue v = true ↔ -2 ^ 255 ≤ v ∧ v < 2 ^ 256 := by
  have half : (Nat.pow 2 (256 - 1) : Int) = 2 ^ 255 := Int.natCast_pow 2 255
  have whole : (Nat.pow 2 256 : Int) = 2 ^ 256 := Int.natCast_pow 2 256
  unfold isLiteralValue
  rw [decide_eq_true_iff, literalWidth_le_iff (by decide) (by decide)]
  by_cases negative : v < 0
  · simp only [inRange, negative, decide_true, if_true, Bool.and_eq_true, decide_eq_true_eq, half]
    omega
  · simp only [inRange, negative, decide_false, Bool.false_eq_true, if_false, Bool.and_eq_true, decide_eq_true_eq, whole]
    omega

namespace Ty

/-- The type has numbers of this sign and of a width in whole bytes. -/
structure InBytes (t : Ty) (signed : Bool) (bits : Nat) : Prop where
  numeric : t.isNumeric = true
  sign : t.isSignedNumeric = signed
  width : t.bits? = some (bits : Int)
  positive : 0 < bits
  bytes : 8 ∣ bits

theorem InBytes.represents_iff {t : Ty} {v : Int} {bits : Nat} (h : t.InBytes (decide (v < 0)) bits) :
    t.Represents v ↔ literalWidth v ≤ bits := by
  unfold Represents hasRange canRepresent
  rw [h.width, h.sign, literalWidth_le_iff h.positive h.bytes]
  simp

theorem integerFor_inBytes (v : Int) : (integerFor v).InBytes (decide (v < 0)) (literalWidth v) :=
  ⟨rfl, rfl, rfl, (literalWidth_bytes v).1, (literalWidth_bytes v).2⟩

/-- A literal converts to the numeric types that have it in their range. -/
theorem numLit_converts_iff {t : Ty} {v : Int} (numeric : t.isNumeric = true) (declared : t.isLiteral = false) :
    (Ty.numLit v).Converts t ↔ t.Represents v := by
  cases t with
  | integer => exact numLit_converts_integer.trans represents_integer.symm
  | number => exact ⟨fun h => ⟨rfl, h.2⟩, fun h => ⟨rfl, h.2⟩⟩
  | numLit => cases declared
  | _ => cases numeric

end Ty

/-- Literals are the integers of 256 bits, signed or not. The declared type of a literal is in whole bytes and signed
exactly if the literal is negative, it has the literal in its range, and no narrower type of that sign in whole bytes has.
So the literal converts to its declared type and to no narrower one of the same sign. -/
theorem literal_narrowest (v : Int) :
    (isLiteralValue v = true ↔ -2 ^ 255 ≤ v ∧ v < 2 ^ 256) ∧
    (isLiteralValue v = true → literalWidth v ≤ 256 ∧
      (Ty.numLit v).abstract = .integer (decide (v < 0)) (.ofBits (literalWidth v)) ∧
      (Ty.numLit v).abstract.InBytes (decide (v < 0)) (literalWidth v) ∧ (Ty.numLit v).abstract.Represents v ∧
      (∀ (t : Ty) bits, t.InBytes (decide (v < 0)) bits → t.Represents v → literalWidth v ≤ bits) ∧
      (Ty.numLit v).Converts (Ty.numLit v).abstract ∧
      ∀ (t : Ty) bits, t.InBytes (decide (v < 0)) bits → t.isLiteral = false → bits < literalWidth v →
        ¬(Ty.numLit v).Converts t) := by
  refine ⟨isLiteralValue_iff v, fun legal => ⟨of_decide_eq_true legal, rfl, Ty.integerFor_inBytes v, ?_,
    fun t bits ht => ht.represents_iff.mp, Ty.literal_converts, fun t bits ht declared narrower converts => ?_⟩⟩
  · exact (Ty.integerFor_inBytes v).represents_iff.mpr (le_refl _)
  · have enough := ht.represents_iff.mp ((Ty.numLit_converts_iff ht.numeric declared).mp converts)
    omega

/-- The least number of 16 bit, and the one below it, which needs another byte. -/
theorem least_word_narrowest : (Ty.numLit (-32768)).Converts (.integer true (.ofBits 16)) ∧
    ¬(Ty.numLit (-32769)).Converts (.integer true (.ofBits 16)) ∧
    (Ty.numLit (-32769)).Converts (.integer true (.ofBits 24)) := by
  obtain ⟨-, fits⟩ := literal_narrowest (-32768)
  obtain ⟨-, exceeds⟩ := literal_narrowest (-32769)
  obtain ⟨-, -, -, -, -, converts, -⟩ := fits (by decide)
  obtain ⟨-, -, -, -, -, wider, narrower⟩ := exceeds (by decide)
  exact ⟨converts, narrower _ 16 ⟨rfl, rfl, rfl, by decide, by decide⟩ rfl (by decide), wider⟩

end Shroud
