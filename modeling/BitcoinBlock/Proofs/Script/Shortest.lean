import BitcoinBlock.Proofs.Script

/-! # The shortest push of a height

Of all scripts that say a height, none is shorter than the one that is built for it. Numbers with
more bytes than they need are read all the same.
-/
namespace BitcoinBlock.Script

variable {l : List UInt8} {height : UInt32} {width : Nat}

theorem Push.toNat_lt (h : Push l height) : height.toNat < 2 ^ 31 := by
  cases h with
  | zero => decide
  | opcode _ hle => exact (UInt32.le_iff_toNat_le.mp hle).trans_lt (by decide)
  | @number number _ _ hlen hsign _ =>
    have hpow : 256 ^ number.length ≤ 256 ^ 4 := Nat.pow_le_pow_right (by decide) hlen
    omega

theorem length_ofHeight_of_le (h : height ≤ 16) : (ofHeight height).bytes.length = 1 := by
  rw [ofHeight, if_pos h]
  split_ifs <;> rfl

theorem length_ofHeight_of_lt (h : 16 < height) :
    (ofHeight height).bytes.length = (heightNumber height).length + 1 := by
  rw [ofHeight_of_lt h, List.length_cons]

theorem length_ofHeight_pos (height : UInt32) : 0 < (ofHeight height).bytes.length := by
  by_cases hle : height ≤ 16
  · rw [length_ofHeight_of_le hle]
    decide
  · rw [length_ofHeight_of_lt (UInt32.not_le.mp hle)]
    exact Nat.succ_pos _

theorem Push.length_ofHeight_le (h : Push l height) :
    (ofHeight height).bytes.length ≤ l.length := by
  by_cases hle : height ≤ 16
  · rw [length_ofHeight_of_le hle]
    cases h <;> simp
  · rw [length_ofHeight_of_lt (UInt32.not_le.mp hle)]
    cases h with
    | zero => exact absurd (by decide) hle
    | opcode _ hopcode => exact absurd hopcode hle
    | number _ _ hsign _ =>
      rw [List.length_cons, Nat.add_le_add_iff_right, length_heightNumber_le_iff]
      exact hsign

theorem push_littleEndian (hpos : 0 < width) (hwidth : width ≤ 4)
    (hsign : 2 * height.toNat < 256 ^ width) :
    Push (UInt8.ofNat width :: littleEndian width height.toNat) height := by
  have hlen : (littleEndian width height.toNat).length = width := length_littleEndian _ _
  have hvalue : ofLittleEndian (littleEndian width height.toNat) = height.toNat := by
    rw [ofLittleEndian_littleEndian]
    exact Nat.mod_eq_of_lt (by omega)
  have hpush := Push.number (hlen.symm ▸ hpos) (hlen.symm ▸ hwidth) (hlen.symm ▸ hsign) hvalue
  rwa [hlen] at hpush

/-- A number as long as the push that is built, or longer, leaves the top bit to the sign. -/
theorem sign_clear_of_length_ofHeight_le (h : (ofHeight height).bytes.length ≤ width) :
    2 * height.toNat < 256 ^ width := by
  by_cases hle : height ≤ 16
  · rw [length_ofHeight_of_le hle] at h
    have hsmall : height.toNat ≤ 16 := UInt32.le_iff_toNat_le.mp hle
    have hpow : 256 ^ 1 ≤ 256 ^ width := Nat.pow_le_pow_right (by decide) h
    omega
  · rw [length_ofHeight_of_lt (UInt32.not_le.mp hle)] at h
    exact (length_heightNumber_le_iff height width).mp (Nat.le_of_succ_le h)

/-- Scripts say no height from `2 ^ 31` on, and none that says a height is shorter than the one that
is built for it. With up to four bytes of number, every longer push says the height as well. -/
theorem ofHeight_shortest :
    (∀ (s : Script) (height : UInt32), s.height? = some height →
      height.toNat < 2 ^ 31 ∧ (ofHeight height).bytes.length ≤ s.bytes.length) ∧
    ∀ (height : UInt32) (width : Nat), (ofHeight height).bytes.length ≤ width → width ≤ 4 →
      height? ⟨UInt8.ofNat width :: littleEndian width height.toNat⟩ = some height := by
  constructor
  · intro s height h
    obtain ⟨push, data, hpush, hbytes⟩ := height?_eq_some_iff.mp h
    refine ⟨hpush.toNat_lt, ?_⟩
    rw [hbytes, List.length_append]
    exact hpush.length_ofHeight_le.trans (Nat.le_add_right _ _)
  · intro height width hlonger hwidth
    have hpos := (length_ofHeight_pos height).trans_le hlonger
    have hsign := sign_clear_of_length_ofHeight_le hlonger
    exact height?_eq_some_iff.mpr
      ⟨_, [], push_littleEndian hpos hwidth hsign, (List.append_nil _).symm⟩

/-- The height 128 takes a byte for its sign. It is also read from a number of three bytes, in front
of other data, and from one of four. -/
theorem ofHeight_shortest_of_signed :
    height? ⟨[3, 0x80, 0, 0, 0xff]⟩ = some 128 ∧
      (128 : UInt32).toNat < 2 ^ 31 ∧ (ofHeight 128).bytes.length ≤ [3, 0x80, 0, 0, 0xff].length ∧
      (ofHeight 128).bytes.length ≤ 4 ∧ height? ⟨[4, 0x80, 0, 0, 0]⟩ = some 128 := by
  have hread : height? ⟨[3, 0x80, 0, 0, 0xff]⟩ = some 128 := by decide
  have hlonger : (ofHeight 128).bytes.length ≤ 4 := by decide
  obtain ⟨hshortest, hwider⟩ := ofHeight_shortest
  obtain ⟨hlt, hle⟩ := hshortest _ _ hread
  exact ⟨hread, hlt, hle, hlonger, hwider 128 4 hlonger le_rfl⟩

end BitcoinBlock.Script
