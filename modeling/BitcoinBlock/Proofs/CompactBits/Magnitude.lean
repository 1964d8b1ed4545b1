import BitcoinBlock.ProofOfWork
import Mathlib.Algebra.Order.Ring.Nat
import Mathlib.Data.Nat.Bitwise
import Mathlib.Tactic.NormNum
import Mathlib.Tactic.Ring
import Mathlib.Tactic.SplitIfs

/-! # The number behind compact bits

Size and digits denote a number without bound. Bits are a target exactly when they are not negative
and this number has 256 bits at most, and then the target is the number. The shift that makes the
target pushes nothing out.
-/
namespace BitcoinBlock.CompactBits

variable {bits : UInt32} {t : Target}

/-- The number that size and digits denote, however large it is. -/
def magnitude (bits : UInt32) : Nat := (mantissa bits).toNat * 256 ^ (size bits - 3)

theorem and_mask (n k i : Nat) : n &&& (2 ^ k - 1) * 2 ^ i = n / 2 ^ i % 2 ^ k * 2 ^ i := by
  apply Nat.eq_of_testBit_eq
  intro j
  rw [Nat.testBit_and, Nat.testBit_mul_two_pow, Nat.testBit_two_pow_sub_one,
    Nat.testBit_mul_two_pow, Nat.testBit_mod_two_pow, Nat.testBit_div_two_pow]
  by_cases hj : i ≤ j
  · simp [hj, Nat.sub_add_cancel hj, Bool.and_comm]
  · simp [hj]

theorem and_digitMask (n : UInt32) : (n &&& 0x007fffff).toNat = n.toNat % 2 ^ 23 := by
  rw [UInt32.toNat_and]
  exact Nat.and_two_pow_sub_one_eq_mod n.toNat 23

theorem and_signMask_ne_zero_iff (n : UInt32) :
    n &&& 0x00800000 ≠ 0 ↔ n.toNat / 2 ^ 23 % 2 = 1 := by
  have hand : (n &&& 0x00800000).toNat = n.toNat / 2 ^ 23 % 2 ^ 1 * 2 ^ 23 := by
    rw [UInt32.toNat_and]
    exact and_mask n.toNat 1 23
  rw [ne_eq, ← UInt32.toNat_inj, hand, UInt32.toNat_zero]
  omega

theorem and_highMask_ne_zero_iff (n : UInt32) : n &&& 0xff800000 ≠ 0 ↔ 2 ^ 23 ≤ n.toNat := by
  have hand : (n &&& 0xff800000).toNat = n.toNat / 2 ^ 23 % 2 ^ 9 * 2 ^ 23 := by
    rw [UInt32.toNat_and]
    exact and_mask n.toNat 9 23
  have hn := n.toNat_lt
  rw [ne_eq, ← UInt32.toNat_inj, hand, UInt32.toNat_zero]
  omega

theorem size_eq (bits : UInt32) : size bits = bits.toNat / 2 ^ 24 := by
  rw [size, UInt32.toNat_shiftRight, Nat.shiftRight_eq_div_pow]
  rfl

theorem toNat_mantissa (bits : UInt32) :
    (mantissa bits).toNat = bits.toNat % 2 ^ 23 / 256 ^ (3 - size bits) := by
  have hshift : (UInt32.ofNat (8 * (3 - size bits))).toNat % 32 = 8 * (3 - size bits) := by
    rw [UInt32.toNat_ofNat']
    omega
  rw [mantissa, UInt32.toNat_shiftRight, hshift, Nat.shiftRight_eq_div_pow, and_digitMask, pow_mul]
  rfl

theorem toNat_mantissa_lt (bits : UInt32) : (mantissa bits).toNat < 2 ^ 23 := by
  rw [toNat_mantissa]
  exact (Nat.div_le_self _ _).trans_lt (Nat.mod_lt _ (by decide))

/-- Digits in three bytes reach beyond 32 bytes when they are moved too far. -/
theorem pow_le_digits_iff {m s : Nat} (hm : m < 2 ^ 23) :
    256 ^ 32 ≤ m * 256 ^ (s - 3) ↔
      m ≠ 0 ∧ (34 < s ∨ (0xff < m ∧ 33 < s) ∨ (0xffff < m ∧ 32 < s)) := by
  rcases (by omega : s ≤ 32 ∨ s = 33 ∨ s = 34 ∨ 35 ≤ s) with hs | rfl | rfl | hs
  · have hsmall : m * 256 ^ (s - 3) < 256 ^ 32 := by
      calc m * 256 ^ (s - 3) ≤ m * 256 ^ 29 :=
            Nat.mul_le_mul_left m (Nat.pow_le_pow_right (by decide) (by omega))
        _ < 2 ^ 23 * 256 ^ 29 := Nat.mul_lt_mul_of_pos_right hm (by decide)
        _ ≤ 256 ^ 32 := by decide
    omega
  · norm_num
    omega
  · norm_num
    omega
  · rcases Nat.eq_zero_or_pos m with rfl | hpos
    · simp
    · have hlarge : 256 ^ 32 ≤ m * 256 ^ (s - 3) :=
        (Nat.pow_le_pow_right (by decide) (by omega)).trans (Nat.le_mul_of_pos_left _ hpos)
      exact iff_of_true hlarge ⟨hpos.ne', .inl (by omega)⟩

theorem overflows_iff : Overflows bits ↔ 2 ^ 256 ≤ magnitude bits := by
  have hpow : 2 ^ 256 = 256 ^ 32 := by norm_num
  rw [magnitude, hpow, pow_le_digits_iff (toNat_mantissa_lt bits), Overflows,
    UInt32.lt_iff_toNat_lt, UInt32.lt_iff_toNat_lt, ne_eq, ← UInt32.toNat_inj, UInt32.toNat_zero]
  rfl

theorem toNat_shifted (bits : UInt32) : (shifted bits).toNat = magnitude bits % 2 ^ 256 := by
  have hpow : 2 ^ (8 * (size bits - 3)) = 256 ^ (size bits - 3) := pow_mul 2 8 _
  rw [shifted, BitVec.toNat_shiftLeft, BitVec.toNat_ofNat, Nat.shiftLeft_eq, hpow, magnitude,
    Nat.mod_mul_mod]

theorem target?_eq_some_iff :
    target? bits = some t ↔ ¬IsNegative bits ∧ t.toNat = magnitude bits := by
  rw [target?]
  split_ifs with h <;> rw [overflows_iff] at h
  · simp only [false_iff, not_and]
    intro hsign ht
    have hlt := t.isLt
    rw [ht] at hlt
    exact h.elim hsign hlt.not_ge
  · rw [not_or, not_le] at h
    rw [Option.some.injEq, ← BitVec.toNat_inj, toNat_shifted, Nat.mod_eq_of_lt h.2, eq_comm]
    exact (and_iff_right h.1).symm

/-- The number that bits mean, as large as it may be: three digits, moved up by the bytes that the
size has beyond three, or down by those that it lacks. -/
def denoted (bits : UInt32) : Nat :=
  if 3 < size bits then (bits &&& 0x007fffff).toNat * 256 ^ (size bits - 3)
  else (bits &&& 0x007fffff).toNat / 256 ^ (3 - size bits)

theorem magnitude_eq_denoted (bits : UInt32) : magnitude bits = denoted bits := by
  rw [magnitude, toNat_mantissa, denoted, and_digitMask]
  split_ifs with h
  · rw [Nat.sub_eq_zero_of_le h.le, pow_zero, Nat.div_one]
  · rw [Nat.sub_eq_zero_of_le (not_lt.mp h), pow_zero, Nat.mul_one]

theorem isNegative_iff : IsNegative bits ↔ magnitude bits ≠ 0 ∧ bits &&& 0x00800000 ≠ 0 := by
  have hpos : 256 ^ (size bits - 3) ≠ 0 := pow_ne_zero _ (by decide)
  rw [IsNegative, magnitude, Nat.mul_ne_zero_iff, and_iff_left hpos, ne_eq (mantissa bits),
    ← UInt32.toNat_inj]
  rfl

theorem target?_eq_none_iff : target? bits = none ↔ IsNegative bits ∨ Overflows bits := by
  rw [target?]
  split_ifs with h
  · exact iff_of_true rfl h
  · exact iff_of_false not_false h

/-- What the shift has moved up comes back when it is moved down, if the number fits. -/
theorem shiftRight_of_toNat_eq (ht : t.toNat = magnitude bits) :
    t >>> (8 * (size bits - 3)) = BitVec.ofNat 256 (mantissa bits).toNat := by
  have hpos : 0 < 256 ^ (size bits - 3) := Nat.pow_pos (by decide)
  have hlt : (mantissa bits).toNat < 2 ^ 256 := (toNat_mantissa_lt bits).trans (by decide)
  rw [← BitVec.toNat_inj, BitVec.toNat_ushiftRight, BitVec.toNat_ofNat, Nat.mod_eq_of_lt hlt, ht,
    Nat.shiftRight_eq_div_pow, pow_mul]
  exact Nat.mul_div_cancel _ hpos

/-- Bits are refused exactly if their number takes more than 256 bits or is negative. All others
stand for their number, and the shift that moves the digits to their place loses none of them. -/
theorem target?_exact (bits : UInt32) :
    (target? bits = none ↔
      2 ^ 256 ≤ denoted bits ∨ denoted bits ≠ 0 ∧ bits &&& 0x00800000 ≠ 0) ∧
    ∀ t, target? bits = some t →
      t.toNat = denoted bits ∧
        t >>> (8 * (size bits - 3)) = BitVec.ofNat 256 (mantissa bits).toNat := by
  constructor
  · rw [target?_eq_none_iff, overflows_iff, isNegative_iff, magnitude_eq_denoted]
    exact or_comm
  · intro t ht
    obtain ⟨-, hnumber⟩ := target?_eq_some_iff.mp ht
    exact ⟨hnumber.trans (magnitude_eq_denoted bits), shiftRight_of_toNat_eq hnumber⟩

/-- The highest number of size 33. One digit more overflows. -/
def highest : Target := (0xffff : Target) <<< 240

theorem target?_highest :
    target? 0x2100ffff = some highest ∧ highest.toNat = denoted 0x2100ffff ∧
      highest >>> (8 * (size 0x2100ffff - 3)) = BitVec.ofNat 256 (mantissa 0x2100ffff).toNat ∧
      target? 0x21010000 = none ∧ 2 ^ 256 ≤ denoted 0x21010000 := by
  have hhighest : target? 0x2100ffff = some highest := by decide
  have hnone : target? 0x21010000 = none := by decide
  obtain ⟨hnumber, hshift⟩ := (target?_exact 0x2100ffff).2 highest hhighest
  have hrefused := (target?_exact 0x21010000).1.mp hnone
  exact ⟨hhighest, hnumber, hshift, hnone, hrefused.resolve_right fun hsign => hsign.2 (by decide)⟩

end BitcoinBlock.CompactBits
