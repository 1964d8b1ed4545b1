import BitcoinBlock.Proofs.CompactBits.Magnitude

/-! # Rounding to compact bits

The bits of a target have the least size at which its leading digits leave the sign alone. Dropping
the lower digits there gives the greatest target with bits of its own that is not above it.
-/
namespace BitcoinBlock.CompactBits

variable {bits : UInt32} {t w : Target} {n s : Nat}

/-- The three leading digits of a number, in base 256, when its size is taken to be `s` bytes. -/
def digitsAt (n s : Nat) : Nat := n * 256 ^ (3 - s) / 256 ^ (s - 3)

theorem digitsAt_of_le (h : s ≤ 3) : digitsAt n s = n * 256 ^ (3 - s) := by
  rw [digitsAt, Nat.sub_eq_zero_of_le h, pow_zero, Nat.div_one]

theorem digitsAt_of_ge (h : 3 ≤ s) : digitsAt n s = n / 256 ^ (s - 3) := by
  rw [digitsAt, Nat.sub_eq_zero_of_le h, pow_zero, Nat.mul_one]

theorem digitsAt_succ (n s : Nat) : digitsAt n (s + 1) = digitsAt n s / 256 := by
  by_cases h : s < 3
  · have hpow : 3 - s = 3 - (s + 1) + 1 := by omega
    rw [digitsAt_of_le h, digitsAt_of_le h.le, hpow, pow_succ, ← Nat.mul_assoc,
      Nat.mul_div_cancel _ (by decide)]
  · have hpow : s + 1 - 3 = s - 3 + 1 := by omega
    rw [digitsAt_of_ge (by omega), digitsAt_of_ge (by omega), Nat.div_div_eq_div_mul, hpow,
      pow_succ]

theorem digitsAt_div_mul (n s : Nat) :
    digitsAt n s / 256 ^ (3 - s) * 256 ^ (s - 3) = n / 256 ^ (s - 3) * 256 ^ (s - 3) := by
  by_cases h : s ≤ 3
  · rw [digitsAt_of_le h, Nat.mul_div_cancel _ (Nat.pow_pos (by decide)), Nat.sub_eq_zero_of_le h,
      pow_zero, Nat.div_one]
  · rw [digitsAt_of_ge (by omega), Nat.sub_eq_zero_of_le (by omega : 3 ≤ s), pow_zero, Nat.div_one]

theorem signDigit_mul_pow_succ (e : Nat) : 2 ^ 15 * 256 ^ (e + 1) = 2 ^ 23 * 256 ^ e := by
  rw [pow_succ]
  ring

/-- The least size whose digits leave the sign bit clear. -/
structure IsSize (n s : Nat) : Prop where
  digitsAt_lt : digitsAt n s < 2 ^ 23
  le_digitsAt : ∀ smaller, s = smaller + 1 → 2 ^ 23 ≤ digitsAt n smaller

/-- Some multiple of the dropped unit stands between any shorter number below `n` and `n`. -/
theorem IsSize.exists_multiple (h : IsSize n s) {m e : Nat} (hm : m < 2 ^ 23)
    (hle : m * 256 ^ e ≤ n) :
    ∃ a, m * 256 ^ e ≤ a * 256 ^ (s - 3) ∧ a * 256 ^ (s - 3) ≤ n := by
  by_cases he : s - 3 ≤ e
  · have hsplit : m * 256 ^ (e - (s - 3)) * 256 ^ (s - 3) = m * 256 ^ e := by
      rw [Nat.mul_assoc, ← pow_add, Nat.sub_add_cancel he]
    exact ⟨m * 256 ^ (e - (s - 3)), hsplit.ge, hsplit.trans_le hle⟩
  · obtain ⟨k, rfl⟩ : ∃ k, s = k + 4 := ⟨s - 4, by omega⟩
    have hdigits := h.le_digitsAt (k + 3) rfl
    rw [digitsAt_of_ge (by omega), Nat.le_div_iff_mul_le (Nat.pow_pos (by decide))] at hdigits
    have hunit : 2 ^ 15 * 256 ^ (k + 4 - 3) = 2 ^ 23 * 256 ^ (k + 3 - 3) :=
      signDigit_mul_pow_succ k
    refine ⟨2 ^ 15, ?_, hunit.trans_le hdigits⟩
    rw [hunit]
    exact Nat.mul_le_mul hm.le (Nat.pow_le_pow_right (by decide) (by omega))

/-- No shorter number below `n` is above what is left of `n` without its dropped bytes. -/
theorem IsSize.le_round (h : IsSize n s) {m e : Nat} (hm : m < 2 ^ 23) (hle : m * 256 ^ e ≤ n) :
    m * 256 ^ e ≤ n / 256 ^ (s - 3) * 256 ^ (s - 3) := by
  obtain ⟨a, hma, han⟩ := h.exists_multiple hm hle
  have ha : a ≤ n / 256 ^ (s - 3) :=
    (Nat.le_div_iff_mul_le (Nat.pow_pos (by decide))).mpr han
  exact hma.trans (Nat.mul_le_mul_right _ ha)

def byteLength (n : Nat) : Nat := (bitLength n + 7) / 8

theorem byteLength_le_iff : byteLength n ≤ s ↔ n < 256 ^ s := by
  have hpow : 256 ^ s = 2 ^ (8 * s) := (pow_mul 2 8 s).symm
  rw [hpow, byteLength, bitLength]
  split_ifs with hn
  · simp [hn]
  · rw [← Nat.log2_lt hn]
    omega

/-- All leading digits are found at the length of the number, and at no smaller size. -/
theorem digitsAt_lt_iff : digitsAt n s < 2 ^ 24 ↔ byteLength n ≤ s := by
  have hpow : (2 : Nat) ^ 24 = 256 ^ 3 := by norm_num
  rw [byteLength_le_iff, hpow]
  by_cases h : s ≤ 3
  · have hsplit : 256 ^ 3 = 256 ^ s * 256 ^ (3 - s) := by
      rw [← pow_add, Nat.add_sub_cancel' h]
    rw [digitsAt_of_le h, hsplit, Nat.mul_lt_mul_right (Nat.pow_pos (by decide))]
  · have hsplit : 256 ^ s = 256 ^ 3 * 256 ^ (s - 3) := by
      rw [← pow_add, Nat.add_sub_cancel' (by omega)]
    rw [digitsAt_of_ge (by omega), hsplit, Nat.div_lt_iff_lt_mul (Nat.pow_pos (by decide))]

theorem isSize_byteLength (h : digitsAt n (byteLength n) < 2 ^ 23) : IsSize n (byteLength n) where
  digitsAt_lt := h
  le_digitsAt := by
    intro smaller heq
    have hshort : ¬digitsAt n smaller < 2 ^ 24 := by
      rw [digitsAt_lt_iff]
      omega
    omega

theorem isSize_byteLength_succ (h : 2 ^ 23 ≤ digitsAt n (byteLength n)) :
    IsSize n (byteLength n + 1) where
  digitsAt_lt := by
    have hlt : digitsAt n (byteLength n) < 2 ^ 24 := digitsAt_lt_iff.mpr le_rfl
    rw [digitsAt_succ]
    omega
  le_digitsAt := by
    intro smaller heq
    rwa [← Nat.succ.inj heq]

theorem toNat_leading (h : digitsAt t.toNat s < 2 ^ 24) :
    (leading t s).toNat = digitsAt t.toNat s := by
  rw [leading]
  split_ifs with hs
  · rw [digitsAt_of_le hs] at h ⊢
    rw [UInt32.toNat_ofNat', Nat.shiftLeft_eq, pow_mul]
    exact Nat.mod_eq_of_lt (h.trans (by decide))
  · rw [digitsAt_of_ge (by omega)] at h ⊢
    rw [UInt32.toNat_ofNat', BitVec.toNat_ushiftRight, Nat.shiftRight_eq_div_pow, pow_mul]
    exact Nat.mod_eq_of_lt (h.trans (by decide))

theorem exists_pack_eq {digits : UInt32} (hdigits : digits.toNat < 2 ^ 23) (hs : s < 256) :
    ∃ bits, pack digits s = some bits ∧ bits.toNat = s * 2 ^ 24 + digits.toNat := by
  have hfits : ¬(digits &&& 0xff800000 ≠ 0 ∨ 256 ≤ s) := by
    rw [and_highMask_ne_zero_iff]
    omega
  have hshift : (UInt32.ofNat s <<< 24).toNat = 2 ^ 24 * s := by
    rw [UInt32.toNat_shiftLeft, UInt32.toNat_ofNat', Nat.shiftLeft_eq]
    change s % 2 ^ 32 * 2 ^ 24 % 2 ^ 32 = _
    omega
  refine ⟨_, if_neg hfits, ?_⟩
  rw [UInt32.toNat_or, hshift, Nat.or_comm, ← Nat.two_pow_add_eq_or_of_lt (by omega), Nat.mul_comm]

/-- The bits of a target hold the least size for its digits, and the digits there. -/
theorem exists_ofTarget?_eq (t : Target) :
    ∃ bits s, ofTarget? t = some bits ∧ IsSize t.toNat s ∧
      bits.toNat = s * 2 ^ 24 + digitsAt t.toNat s := by
  have hlength : byteLength t.toNat ≤ 32 := byteLength_le_iff.mpr t.isLt
  have hleading := toNat_leading (t := t) (digitsAt_lt_iff.mpr le_rfl)
  have hencode : ofTarget? t =
      if leading t (byteLength t.toNat) &&& 0x00800000 ≠ 0 then
        pack (leading t (byteLength t.toNat) >>> 8) (byteLength t.toNat + 1)
      else pack (leading t (byteLength t.toNat)) (byteLength t.toNat) := rfl
  have hlt : digitsAt t.toNat (byteLength t.toNat) < 2 ^ 24 := digitsAt_lt_iff.mpr le_rfl
  by_cases hsign : leading t (byteLength t.toNat) &&& 0x00800000 ≠ 0
  · rw [hencode, if_pos hsign]
    rw [and_signMask_ne_zero_iff, hleading] at hsign
    have hsize : IsSize t.toNat (byteLength t.toNat + 1) := isSize_byteLength_succ (by omega)
    have hdigits : (leading t (byteLength t.toNat) >>> 8).toNat =
        digitsAt t.toNat (byteLength t.toNat + 1) := by
      rw [UInt32.toNat_shiftRight, hleading, digitsAt_succ, Nat.shiftRight_eq_div_pow]
      rfl
    obtain ⟨bits, hpack, hbits⟩ :=
      exists_pack_eq (hdigits.trans_lt hsize.digitsAt_lt) (by omega : byteLength t.toNat + 1 < 256)
    exact ⟨bits, _, hpack, hsize, hdigits ▸ hbits⟩
  · rw [hencode, if_neg hsign]
    rw [and_signMask_ne_zero_iff, hleading] at hsign
    have hsize : IsSize t.toNat (byteLength t.toNat) := isSize_byteLength (by omega)
    obtain ⟨bits, hpack, hbits⟩ :=
      exists_pack_eq (hleading.trans_lt hsize.digitsAt_lt) (by omega : byteLength t.toNat < 256)
    exact ⟨bits, _, hpack, hsize, hleading ▸ hbits⟩

/-- Bits that hold small digits are positive, and denote the digits at their size. -/
theorem magnitude_of_toNat_eq {digits : Nat} (hdigits : digits < 2 ^ 23)
    (hbits : bits.toNat = s * 2 ^ 24 + digits) :
    ¬IsNegative bits ∧ magnitude bits = digits / 256 ^ (3 - s) * 256 ^ (s - 3) := by
  have hs : size bits = s := by
    rw [size_eq]
    omega
  constructor
  · rintro ⟨-, hsign⟩
    rw [and_signMask_ne_zero_iff] at hsign
    omega
  · rw [magnitude, toNat_mantissa, hs, hbits]
    congr 2
    omega

theorem exists_rounded (t : Target) :
    ∃ bits rounded s, ofTarget? t = some bits ∧ target? bits = some rounded ∧
      IsSize t.toNat s ∧ rounded.toNat = t.toNat / 256 ^ (s - 3) * 256 ^ (s - 3) := by
  obtain ⟨bits, s, hencode, hsize, hbits⟩ := exists_ofTarget?_eq t
  obtain ⟨hsign, hmagnitude⟩ := magnitude_of_toNat_eq hsize.digitsAt_lt hbits
  rw [digitsAt_div_mul] at hmagnitude
  have hlt : magnitude bits < 2 ^ 256 := by
    rw [hmagnitude]
    exact (Nat.div_mul_le_self _ _).trans_lt t.isLt
  have hrounded : (BitVec.ofNat 256 (magnitude bits)).toNat = magnitude bits := by
    rw [BitVec.toNat_ofNat, Nat.mod_eq_of_lt hlt]
  exact ⟨bits, _, s, hencode, target?_eq_some_iff.mpr ⟨hsign, hrounded⟩, hsize,
    hrounded.trans hmagnitude⟩

/-- Every target has bits, and these bits denote the greatest target with bits that is not above it.
So a target that bits denote keeps its value when it is written again, and only the target zero is
refused. -/
theorem ofTarget?_greatest :
    (∀ t : Target, ∃ bits rounded, ofTarget? t = some bits ∧ target? bits = some rounded ∧
      rounded ≤ t ∧ ∀ other w, target? other = some w → w ≤ t → w ≤ rounded) ∧
    (∀ bits t, target? bits = some t → ∃ again, ofTarget? t = some again ∧ target? again = some t) ∧
    ∀ t e, ofTarget t = .error e ↔ t = 0 ∧ e = .unencodableTarget := by
  have hgreatest : ∀ t : Target, ∃ bits rounded, ofTarget? t = some bits ∧
      target? bits = some rounded ∧ rounded ≤ t ∧
        ∀ other w, target? other = some w → w ≤ t → w ≤ rounded := by
    intro t
    obtain ⟨bits, rounded, s, hencode, hdecode, hsize, hrounded⟩ := exists_rounded t
    refine ⟨bits, rounded, hencode, hdecode, ?_, ?_⟩
    · rw [BitVec.le_def, hrounded]
      exact Nat.div_mul_le_self _ _
    · intro other w hother hle
      rw [BitVec.le_def, (target?_eq_some_iff.mp hother).2] at hle ⊢
      rw [hrounded]
      exact hsize.le_round (toNat_mantissa_lt other) hle
  refine ⟨hgreatest, ?_, ?_⟩
  · intro bits t hbits
    obtain ⟨again, rounded, hencode, hdecode, hle, hmax⟩ := hgreatest t
    obtain rfl : rounded = t := BitVec.le_antisymm hle (hmax bits t hbits (BitVec.le_refl t))
    exact ⟨again, hencode, hdecode⟩
  · intro t e
    obtain ⟨bits, -, hencode, -⟩ := hgreatest t
    rw [ofTarget, hencode]
    split_ifs with ht
    · rw [Except.error.injEq, eq_comm]
      exact (and_iff_right ht).symm
    · simp only [Option.elim_some, reduceCtorEq, ht, false_and]

def uneven : Target := (0xffff : Target) <<< 208 + 1

/-- A lower target with bits, of which some give it a larger size than it needs. -/
def coarse : Target := (0xff : Target) <<< 216

theorem ofTarget?_uneven :
    target? 0x1e0000ff = some coarse ∧ coarse ≤ uneven ∧
      (∃ rounded, ofTarget? uneven = some 0x1d00ffff ∧ target? 0x1d00ffff = some rounded ∧
        rounded ≤ uneven ∧ coarse ≤ rounded) ∧
      ∃ again, ofTarget? coarse = some again ∧ target? again = some coarse := by
  have hcoarse : target? 0x1e0000ff = some coarse := by decide
  have hle : coarse ≤ uneven := by decide
  have hbits : ofTarget? uneven = some 0x1d00ffff := by decide
  obtain ⟨hgreatest, hagain, -⟩ := ofTarget?_greatest
  obtain ⟨bits, rounded, hencode, hdecode, hrounded, hmax⟩ := hgreatest uneven
  obtain rfl : 0x1d00ffff = bits := Option.some.inj (hbits.symm.trans hencode)
  exact ⟨hcoarse, hle, ⟨rounded, hencode, hdecode, hrounded, hmax _ coarse hcoarse hle⟩,
    hagain _ coarse hcoarse⟩

end BitcoinBlock.CompactBits
