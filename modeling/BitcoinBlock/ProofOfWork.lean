import BitcoinBlock.Basic
import BitcoinBlock.Hash
import BitcoinBlock.Text

/-! Targets, the 256-bit numbers that block hashes have to stay below, and the bits for them. -/
namespace BitcoinBlock

abbrev Target := BitVec 256

namespace Target

def toHex (t : Target) : String := Text.Hex.encode (bigEndian 32 t.toNat)

/-- Limb `i` of 64 bits, the least significant being limb 0. -/
def limb (t : Target) (i : Nat) : UInt64 := UInt64.ofNat (t.toNat >>> (64 * i))

/-- The nearby floating-point number: limbs are taken in from the most significant end, and each
step rounds. -/
def toFloat (t : Target) : Float :=
  [3, 2, 1, 0].foldl (fun sum i => sum * 18446744073709551616.0 + (t.limb i).toFloat) 0.0

end Target

/-! ## Compact bits

A target in four bytes. The first is a size in bytes, the other three are its leading digits in base
256, whose top bit is a sign.
-/

namespace CompactBits

def size (bits : UInt32) : Nat := (bits >>> 24).toNat

/-- The leading digits. A size below three drops the lower ones. -/
def mantissa (bits : UInt32) : UInt32 :=
  (bits &&& 0x007fffff) >>> UInt32.ofNat (8 * (3 - size bits))

def IsNegative (bits : UInt32) : Prop := mantissa bits ≠ 0 ∧ bits &&& 0x00800000 ≠ 0

/-- The digits do not fit into 32 bytes. -/
def Overflows (bits : UInt32) : Prop :=
  mantissa bits ≠ 0 ∧
    (34 < size bits ∨ (0xff < mantissa bits ∧ 33 < size bits) ∨
      (0xffff < mantissa bits ∧ 32 < size bits))

instance (bits : UInt32) : Decidable (IsNegative bits) := inferInstanceAs (Decidable (_ ∧ _))

instance (bits : UInt32) : Decidable (Overflows bits) := inferInstanceAs (Decidable (_ ∧ _))

/-- The digits moved to their place. Whatever the shift would push out is an overflow. -/
def shifted (bits : UInt32) : Target :=
  BitVec.ofNat 256 (mantissa bits).toNat <<< (8 * (size bits - 3))

def target? (bits : UInt32) : Option Target :=
  if IsNegative bits ∨ Overflows bits then none else some (shifted bits)

def bitLength (n : Nat) : Nat := if n = 0 then 0 else n.log2 + 1

/-- The three leading bytes of a number of `size` bytes. -/
def leading (t : Target) (size : Nat) : UInt32 :=
  if size ≤ 3 then UInt32.ofNat (t.toNat <<< (8 * (3 - size)))
  else UInt32.ofNat (t >>> (8 * (size - 3))).toNat

def pack (digits : UInt32) (size : Nat) : Option UInt32 :=
  if digits &&& 0xff800000 ≠ 0 ∨ 256 ≤ size then none
  else some (digits ||| UInt32.ofNat size <<< 24)

/-- The bits of the greatest target that is not above `t`. Digits whose top bit would read as a
sign move down by one byte. -/
def ofTarget? (t : Target) : Option UInt32 :=
  let size := (bitLength t.toNat + 7) / 8
  let digits := leading t size
  if digits &&& 0x00800000 ≠ 0 then pack (digits >>> 8) (size + 1) else pack digits size

/-- A target of zero admits no block, so it has no bits. -/
def ofTarget (t : Target) : Except Error UInt32 :=
  if t = 0 then .error .unencodableTarget
  else (ofTarget? t).elim (.error .unencodableTarget) .ok

/-- Zero bits, negative ones and overflowing ones stand for the target zero. -/
def target (bits : UInt32) : Target := if bits = 0 then 0 else (target? bits).getD 0

/-- The target in 64 hexadecimal digits; nothing when there are no bits. -/
def targetHex (bits : UInt32) : String := if bits = 0 then "" else (target bits).toHex

end CompactBits

/-! ## Proof of work: a hash below its target, and how hard such a hash is to find -/

namespace ProofOfWork

/-- The bits of the easiest target, at difficulty one. -/
def easiestBits : UInt32 := 0x1d00ffff

def difficulty (bits : UInt32) : Float :=
  if CompactBits.target bits = 0 then 0.0
  else (CompactBits.target easiestBits).toFloat / (CompactBits.target bits).toFloat

def check (hash : Hash) (bits : UInt32) : Bool :=
  CompactBits.target bits ≠ 0 && hash.toWord < CompactBits.target bits

/-- No hash is below the target zero. -/
theorem check_iff {hash : Hash} {bits : UInt32} :
    check hash bits = true ↔ hash.toWord < CompactBits.target bits := by
  rw [check, Bool.and_eq_true_iff, decide_eq_true_iff, decide_eq_true_iff, and_iff_right_iff_imp]
  rintro h hzero
  rw [hzero] at h
  exact BitVec.not_lt_zero h

end ProofOfWork

end BitcoinBlock
