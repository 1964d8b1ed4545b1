import BitcoinBlock.Proofs.CompactBits.Rounding

/-! # Canonical compact bits

Size and digits are ordered like one number, the size counting most. So the bits of targets are in
the order of the targets, and the least size makes the bits of a target the least ones that denote
what it is rounded to.
-/
namespace BitcoinBlock.CompactBits

variable {bits other : UInt32} {t v w rounded : Target} {n n' s s' : Nat}

theorem digitsAt_mono (h : n ≤ n') (s : Nat) : digitsAt n s ≤ digitsAt n' s :=
  Nat.div_le_div_right (Nat.mul_le_mul_right _ h)

theorem digitsAt_antitone (n : Nat) : Antitone (digitsAt n) := by
  apply antitone_nat_of_succ_le
  intro s
  rw [digitsAt_succ]
  exact Nat.div_le_self _ _

/-- The sign is left alone at the least size and above, and nowhere else. -/
theorem IsSize.le_iff (h : IsSize n s) : s ≤ s' ↔ digitsAt n s' < 2 ^ 23 := by
  constructor
  · intro hle
    exact (digitsAt_antitone n hle).trans_lt h.digitsAt_lt
  · intro hlt
    by_contra hlow
    obtain ⟨smaller, rfl⟩ : ∃ smaller, s = smaller + 1 := ⟨s - 1, by omega⟩
    have hle : digitsAt n smaller ≤ digitsAt n s' := digitsAt_antitone n (by omega)
    have hge := h.le_digitsAt smaller rfl
    omega

theorem IsSize.unique (h : IsSize n s) (h' : IsSize n s') : s = s' :=
  Nat.le_antisymm (h.le_iff.mpr h'.digitsAt_lt) (h'.le_iff.mpr h.digitsAt_lt)

theorem ofTarget?_eq_some_iff :
    ofTarget? t = some bits ↔
      ∃ s, IsSize t.toNat s ∧ bits.toNat = s * 2 ^ 24 + digitsAt t.toNat s := by
  obtain ⟨found, s, hencode, hsize, hfound⟩ := exists_ofTarget?_eq t
  rw [hencode, Option.some.injEq]
  constructor
  · rintro rfl
    exact ⟨s, hsize, hfound⟩
  · rintro ⟨s', hsize', hbits⟩
    obtain rfl := hsize.unique hsize'
    exact UInt32.toNat_inj.mp (hfound.trans hbits.symm)

theorem le_of_size_le {a b : UInt32} {d d' : Nat} (ha : a.toNat = s * 2 ^ 24 + d)
    (hb : b.toNat = s' * 2 ^ 24 + d') (hd : d < 2 ^ 24) (hs : s ≤ s') (hdd : s = s' → d ≤ d') :
    a ≤ b := by
  rw [UInt32.le_iff_toNat_le, ha, hb]
  rcases hs.lt_or_eq with hlt | heq
  · omega
  · have hdigits := hdd heq
    omega

theorem ofTarget?_mono {a b : UInt32} (hle : v ≤ w) (hv : ofTarget? v = some a)
    (hw : ofTarget? w = some b) : a ≤ b := by
  obtain ⟨s, hs, ha⟩ := ofTarget?_eq_some_iff.mp hv
  obtain ⟨s', hs', hb⟩ := ofTarget?_eq_some_iff.mp hw
  have hdigits (size : Nat) : digitsAt v.toNat size ≤ digitsAt w.toNat size :=
    digitsAt_mono (BitVec.le_def.mp hle) size
  apply le_of_size_le ha hb
  · exact hs.digitsAt_lt.trans (by decide)
  · exact hs.le_iff.mpr ((hdigits s').trans_lt hs'.digitsAt_lt)
  · rintro rfl
    exact hdigits s

/-- The digits that bits denote at their size are the ones that they hold, less those that a size
below three drops. -/
theorem digitsAt_magnitude_le (bits : UInt32) :
    digitsAt (magnitude bits) (size bits) ≤ bits.toNat % 2 ^ 23 := by
  rw [magnitude, toNat_mantissa]
  by_cases h : size bits ≤ 3
  · rw [digitsAt_of_le h, Nat.sub_eq_zero_of_le h, pow_zero, Nat.mul_one]
    exact Nat.div_mul_le_self _ _
  · rw [digitsAt_of_ge (by omega), Nat.mul_div_cancel _ (Nat.pow_pos (by decide))]
    exact Nat.div_le_self _ _

/-- Whatever else denotes a target has at least the size of its bits, and at that size at least
their digits. -/
theorem le_of_target?_eq (hbits : ofTarget? t = some bits) (hother : target? other = some t) :
    bits ≤ other := by
  obtain ⟨s, hsize, hnumber⟩ := ofTarget?_eq_some_iff.mp hbits
  obtain ⟨-, ht⟩ := target?_eq_some_iff.mp hother
  have hdigits : digitsAt t.toNat (size other) ≤ other.toNat % 2 ^ 23 := by
    rw [ht]
    exact digitsAt_magnitude_le other
  have hother' : other.toNat = size other * 2 ^ 24 + other.toNat % 2 ^ 24 := by
    rw [size_eq]
    omega
  apply le_of_size_le hnumber hother'
  · exact hsize.digitsAt_lt.trans (by decide)
  · exact hsize.le_iff.mpr (hdigits.trans_lt (Nat.mod_lt _ (by decide)))
  · rintro rfl
    omega

theorem digitsAt_round (n s : Nat) :
    digitsAt (n / 256 ^ (s - 3) * 256 ^ (s - 3)) s = digitsAt n s := by
  by_cases h : s ≤ 3
  · rw [Nat.sub_eq_zero_of_le h, pow_zero, Nat.div_one, Nat.mul_one]
  · rw [digitsAt_of_ge (by omega), digitsAt_of_ge (by omega),
      Nat.mul_div_cancel _ (Nat.pow_pos (by decide))]

theorem IsSize.round (h : IsSize n s) : IsSize (n / 256 ^ (s - 3) * 256 ^ (s - 3)) s where
  digitsAt_lt := by
    rw [digitsAt_round]
    exact h.digitsAt_lt
  le_digitsAt := by
    rintro smaller rfl
    have hdigits := h.le_digitsAt smaller rfl
    by_cases hsmall : smaller < 3
    · rwa [Nat.sub_eq_zero_of_le hsmall, pow_zero, Nat.div_one, Nat.mul_one]
    · have hsize : smaller + 1 - 3 = smaller - 3 + 1 := by omega
      rw [digitsAt_of_ge (by omega), Nat.le_div_iff_mul_le (Nat.pow_pos (by decide)),
        ← signDigit_mul_pow_succ, ← hsize] at hdigits ⊢
      exact h.le_round (by decide) hdigits

theorem ofTarget?_rounded (hbits : ofTarget? t = some bits) (hrounded : target? bits = some rounded) :
    ofTarget? rounded = some bits := by
  obtain ⟨again, rounded', s, hagain, hrounded', hsize, hnumber⟩ := exists_rounded t
  obtain rfl : bits = again := Option.some.inj (hbits.symm.trans hagain)
  obtain rfl : rounded = rounded' := Option.some.inj (hrounded.symm.trans hrounded')
  obtain ⟨s', hsize', hdigits⟩ := ofTarget?_eq_some_iff.mp hbits
  obtain rfl := hsize.unique hsize'
  refine ofTarget?_eq_some_iff.mpr ⟨s, ?_, ?_⟩
  · rw [hnumber]
    exact hsize.round
  · rw [hnumber, digitsAt_round]
    exact hdigits

theorem signMask_eq_zero_of_ofTarget? (hbits : ofTarget? t = some bits) :
    bits &&& 0x00800000 = 0 := by
  obtain ⟨s, hsize, hnumber⟩ := ofTarget?_eq_some_iff.mp hbits
  have hdigits := hsize.digitsAt_lt
  by_contra hsign
  rw [← ne_eq, and_signMask_ne_zero_iff] at hsign
  omega

/-- The bits of targets stand in the order of the targets. They never have the sign, they are the
bits of the target that they denote, and no lower bits denote that target. -/
theorem ofTarget?_canonical :
    (∀ v w : Target, v ≤ w → ∃ a b, ofTarget? v = some a ∧ ofTarget? w = some b ∧ a ≤ b) ∧
    ∀ v : Target, ∃ bits rounded, ofTarget? v = some bits ∧ bits &&& 0x00800000 = 0 ∧
      target? bits = some rounded ∧ ofTarget? rounded = some bits ∧
        ∀ other, target? other = target? bits → bits ≤ other := by
  constructor
  · intro v w hle
    obtain ⟨a, s, ha, -⟩ := exists_ofTarget?_eq v
    obtain ⟨b, s', hb, -⟩ := exists_ofTarget?_eq w
    exact ⟨a, b, ha, hb, ofTarget?_mono hle ha hb⟩
  · intro v
    obtain ⟨bits, rounded, s, hbits, hrounded, -⟩ := exists_rounded v
    have hagain := ofTarget?_rounded hbits hrounded
    refine ⟨bits, rounded, hbits, signMask_eq_zero_of_ofTarget? hbits, hrounded, hagain, ?_⟩
    intro other hother
    exact le_of_target?_eq hagain (hother.trans hrounded)

theorem ofTarget?_coarse_and_uneven :
    coarse ≤ uneven ∧ (∃ a b, ofTarget? coarse = some a ∧ ofTarget? uneven = some b ∧ a ≤ b) ∧
      ofTarget? coarse = some 0x1d00ff00 ∧ target? 0x1e0000ff = target? 0x1d00ff00 ∧
      (0x1d00ff00 : UInt32) ≤ 0x1e0000ff := by
  have hle : coarse ≤ uneven := by decide
  have hcoarse : ofTarget? coarse = some 0x1d00ff00 := by decide
  have hsame : target? 0x1e0000ff = target? 0x1d00ff00 := by decide
  obtain ⟨hordered, hcanonical⟩ := ofTarget?_canonical
  obtain ⟨bits, rounded, hbits, -, -, -, hleast⟩ := hcanonical coarse
  obtain rfl : 0x1d00ff00 = bits := Option.some.inj (hcoarse.symm.trans hbits)
  exact ⟨hle, hordered coarse uneven hle, hcoarse, hsame, hleast _ hsame⟩

end BitcoinBlock.CompactBits
