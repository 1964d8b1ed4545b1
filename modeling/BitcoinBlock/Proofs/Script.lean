import BitcoinBlock.Proofs.Wire.Decoder
import BitcoinBlock.Transaction
import Mathlib.Data.List.DropRight
import Mathlib.Tactic.SplitIfs

/-! # Heights in scripts

A script says a height exactly if it starts with a push of it, whatever follows. So the height that a
script was built for is read back, as long as it is below `2 ^ 31`. The push of a greater one takes
five bytes, and no height is read from it.
-/
namespace BitcoinBlock.Script

variable {l number data : List UInt8} {push : UInt8} {height : UInt32}

theorem ofLittleEndian_trimZeros (l : List UInt8) :
    ofLittleEndian (trimZeros l) = ofLittleEndian l := by
  change ofLittleEndian (l.rdropWhile (· == 0)) = _
  induction l using List.reverseRecOn with
  | nil => rfl
  | append_singleton front b ih =>
    rw [List.rdropWhile_concat]
    split_ifs with hb
    · obtain rfl : b = 0 := by simpa using hb
      rw [ih, ofLittleEndian_concat, UInt8.toNat_zero, Nat.mul_zero, Nat.add_zero]
    · rfl

/-- No zeros are left to be dropped, so the bytes that are left are as many as the number needs. -/
theorem length_trimZeros_le_iff (l : List UInt8) (width : Nat) :
    (trimZeros l).length ≤ width ↔ ofLittleEndian l < 256 ^ width := by
  change (l.rdropWhile (· == 0)).length ≤ width ↔ _
  induction l using List.reverseRecOn with
  | nil => exact iff_of_true (Nat.zero_le width) (Nat.pow_pos (by decide))
  | append_singleton front b ih =>
    rw [List.rdropWhile_concat]
    split_ifs with hb
    · obtain rfl : b = 0 := by simpa using hb
      rw [ih, ofLittleEndian_concat, UInt8.toNat_zero, Nat.mul_zero, Nat.add_zero]
    · have hpos : 0 < b.toNat := by
        rw [Nat.pos_iff_ne_zero, ne_eq, ← UInt8.toNat_zero, UInt8.toNat_inj]
        simpa using hb
      constructor
      · intro hlen
        exact (ofLittleEndian_lt _).trans_le (Nat.pow_le_pow_right (by decide) hlen)
      · intro hlt
        have hle : 256 ^ front.length ≤ 256 ^ front.length * b.toNat :=
          Nat.le_mul_of_pos_right _ hpos
        rw [ofLittleEndian_concat] at hlt
        have hpow : 256 ^ front.length < 256 ^ width := by omega
        rw [List.length_append, List.length_singleton]
        exact (Nat.pow_lt_pow_iff_right (by decide)).mp hpow

theorem ofLittleEndian_withSign (l : List UInt8) :
    ofLittleEndian (withSign l) = ofLittleEndian l := by
  rw [withSign]
  split_ifs
  · rw [ofLittleEndian_concat, UInt8.toNat_zero, Nat.mul_zero, Nat.add_zero]
  · rfl

theorem getLastD_withSign_lt (l : List UInt8) : (withSign l).getLastD 0 < 0x80 := by
  rw [withSign]
  split_ifs with h
  · rw [List.getLastD_concat]
    decide
  · exact UInt8.not_le.mp h

theorem getLastD_lt_iff (l : List UInt8) :
    l.getLastD 0 < 0x80 ↔ 2 * ofLittleEndian l < 256 ^ l.length := by
  rcases List.eq_nil_or_concat' l with rfl | ⟨front, last, rfl⟩
  · exact iff_of_true (by decide) (by decide)
  · have hfront := ofLittleEndian_lt front
    rw [List.getLastD_concat, UInt8.lt_iff_toNat_lt, ofLittleEndian_concat, List.length_append,
      List.length_singleton, pow_succ]
    simp only [UInt8.reduceToNat]
    constructor
    · intro h
      have hlast : 256 ^ front.length * last.toNat ≤ 256 ^ front.length * 127 :=
        Nat.mul_le_mul_left _ (by omega)
      omega
    · intro h
      by_contra hge
      have hlast : 256 ^ front.length * 128 ≤ 256 ^ front.length * last.toNat :=
        Nat.mul_le_mul_left _ (by omega)
      omega

/-- Without zeros on top but for a sign, the bytes are as many as a signed number needs. -/
theorem length_withSign_trimZeros_le_iff (l : List UInt8) (width : Nat) :
    (withSign (trimZeros l)).length ≤ width ↔ 2 * ofLittleEndian l < 256 ^ width := by
  constructor
  · intro hlen
    have hclear := (getLastD_lt_iff _).mp (getLastD_withSign_lt (trimZeros l))
    rw [ofLittleEndian_withSign, ofLittleEndian_trimZeros] at hclear
    exact hclear.trans_le (Nat.pow_le_pow_right (by decide) hlen)
  · intro hlt
    rw [withSign]
    split_ifs with hbit
    · have hset := (getLastD_lt_iff _).not.mp (UInt8.not_lt.mpr hbit)
      rw [ofLittleEndian_trimZeros, not_lt] at hset
      rw [List.length_append, List.length_singleton]
      exact (Nat.pow_lt_pow_iff_right (by decide)).mp (hset.trans_lt hlt)
    · rw [length_trimZeros_le_iff]
      omega

/-- The number in the push of a height above 16. -/
def heightNumber (height : UInt32) : List UInt8 :=
  withSign (trimZeros (littleEndian 4 height.toNat))

theorem ofLittleEndian_heightNumber (height : UInt32) :
    ofLittleEndian (heightNumber height) = height.toNat := by
  rw [heightNumber, ofLittleEndian_withSign, ofLittleEndian_trimZeros,
    ofLittleEndian_littleEndian]
  exact Nat.mod_eq_of_lt height.toNat_lt

theorem length_heightNumber_le_iff (height : UInt32) (width : Nat) :
    (heightNumber height).length ≤ width ↔ 2 * height.toNat < 256 ^ width := by
  rw [heightNumber, length_withSign_trimZeros_le_iff, ofLittleEndian_littleEndian,
    Nat.mod_eq_of_lt (show height.toNat < 256 ^ 4 from height.toNat_lt)]

theorem length_heightNumber_pos (h : height ≠ 0) : 0 < (heightNumber height).length := by
  rw [ne_eq, ← UInt32.toNat_inj, UInt32.toNat_zero] at h
  have hlen := (length_heightNumber_le_iff height 0).not.mpr (by omega)
  exact Nat.lt_of_not_le hlen

/-- The pushes of a height: an opcode of its own up to 16, or the length of a number and the number,
which leaves the top bit to the sign. -/
inductive Push : List UInt8 → UInt32 → Prop
  | zero : Push [0] 0
  | opcode {height : UInt32} (hzero : height ≠ 0) (hle : height ≤ 16) :
      Push [0x50 + height.toUInt8] height
  | number {number : List UInt8} {height : UInt32} (hpos : 0 < number.length)
      (hlen : number.length ≤ 4) (hsign : 2 * height.toNat < 256 ^ number.length)
      (hvalue : ofLittleEndian number = height.toNat) :
      Push (UInt8.ofNat number.length :: number) height

/-- A push of up to four bytes is read without what follows it, unless it is negative. -/
theorem height?_of_push (hpush : push.toNat = number.length) (hpos : 0 < number.length)
    (hlen : number.length ≤ 4) (hsign : number.getLastD 0 < 0x80) :
    height? ⟨push :: (number ++ data)⟩ = some (UInt32.ofNat (ofLittleEndian number)) := by
  have hzero : push ≠ 0 := by
    rintro rfl
    exact hpos.ne hpush
  have hopcode : ¬(0x51 ≤ push ∧ push ≤ 0x60) := by
    rw [UInt8.le_iff_toNat_le, hpush]
    exact fun h => absurd (h.1.trans hlen) (by decide)
  have hshort : push ≤ 4 := by
    rw [UInt8.le_iff_toNat_le, hpush]
    exact hlen
  have htake : (number ++ data).take push.toNat = number := by
    rw [hpush]
    exact List.take_left
  have hread : ¬(number.length < push.toNat ∨ 0x80 ≤ number.getLastD 0) := by
    rw [hpush, not_or]
    exact ⟨lt_irrefl _, UInt8.not_le.mpr hsign⟩
  simp only [height?, if_neg hzero, if_neg hopcode, if_pos hshort, htake, if_neg hread]

theorem height?_of_long_push (h : push.toNat = 5) : height? ⟨push :: data⟩ = none := by
  obtain rfl : push = 5 := UInt8.toNat_inj.mp h
  rfl

theorem ofHeight_of_lt (h : 16 < height) :
    ofHeight height =
      ⟨UInt8.ofNat (heightNumber height).length :: heightNumber height⟩ := by
  have hzero : height ≠ 0 := by
    rintro rfl
    exact absurd h (by decide)
  rw [ofHeight, if_neg hzero, if_neg (UInt32.not_le.mpr h)]
  rfl

theorem height?_of_opcode (hzero : height ≠ 0) (hle : height ≤ 16) :
    height? ⟨(0x50 + height.toUInt8) :: data⟩ = some height := by
  rw [ne_eq, ← UInt32.toNat_inj, UInt32.toNat_zero] at hzero
  have hsmall : height.toNat ≤ 16 := UInt32.le_iff_toNat_le.mp hle
  have hopcode : (0x50 + height.toUInt8).toNat = 0x50 + height.toNat := by
    rw [UInt8.toNat_add, UInt32.toNat_toUInt8]
    change (0x50 + height.toNat % 2 ^ 8) % 2 ^ 8 = _
    omega
  have hne : 0x50 + height.toUInt8 ≠ 0 := by
    rw [ne_eq, ← UInt8.toNat_inj, hopcode, UInt8.toNat_zero]
    omega
  have hrange : 0x51 ≤ 0x50 + height.toUInt8 ∧ 0x50 + height.toUInt8 ≤ 0x60 := by
    rw [UInt8.le_iff_toNat_le, UInt8.le_iff_toNat_le, hopcode]
    change 0x51 ≤ _ ∧ _ ≤ 0x60
    omega
  have hread : (0x50 + height.toUInt8 - 0x50).toUInt32 = height := by
    rw [UInt8.add_comm, UInt8.add_sub_cancel]
    apply UInt32.toNat_inj.mp
    rw [UInt8.toNat_toUInt32, UInt32.toNat_toUInt8]
    omega
  simp only [height?, if_neg hne, if_pos hrange, hread]

theorem Push.height?_append (h : Push l height) (data : List UInt8) :
    height? ⟨l ++ data⟩ = some height := by
  cases h with
  | zero => rfl
  | opcode hzero hle => exact height?_of_opcode hzero hle
  | @number number _ hpos hlen hsign hvalue =>
    have hpush : (UInt8.ofNat number.length).toNat = number.length :=
      UInt8.toNat_ofNat_of_lt' (hlen.trans_lt (by decide))
    rw [← hvalue, ← getLastD_lt_iff] at hsign
    change height? ⟨_ :: (number ++ data)⟩ = _
    rw [height?_of_push hpush hpos hlen hsign, hvalue, UInt32.ofNat_toNat]

theorem push_of_opcode {push : UInt8} (h : 0x51 ≤ push ∧ push ≤ 0x60) :
    Push [push] (push - 0x50).toUInt32 := by
  have hlow : 0x51 ≤ push.toNat := UInt8.le_iff_toNat_le.mp h.1
  have hhigh : push.toNat ≤ 0x60 := UInt8.le_iff_toNat_le.mp h.2
  have hsub : (push - 0x50).toUInt32.toNat = push.toNat - 0x50 := by
    rw [UInt8.toNat_toUInt32]
    apply UInt8.toNat_sub_of_le
    rw [UInt8.le_iff_toNat_le]
    exact (Nat.le_succ 0x50).trans hlow
  have hopcode : push = 0x50 + (push - 0x50).toUInt32.toUInt8 := by
    rw [UInt8.toUInt8_toUInt32, UInt8.add_comm, UInt8.sub_add_cancel]
  have hpush : Push [0x50 + (push - 0x50).toUInt32.toUInt8] (push - 0x50).toUInt32 := by
    apply Push.opcode
    · rw [ne_eq, ← UInt32.toNat_inj, hsub, UInt32.toNat_zero]
      omega
    · rw [UInt32.le_iff_toNat_le, hsub]
      change _ ≤ 16
      omega
  rwa [← hopcode] at hpush

theorem push_of_number (hpos : 0 < l.length) (hlen : l.length ≤ 4) (hsign : l.getLastD 0 < 0x80) :
    Push (UInt8.ofNat l.length :: l) (UInt32.ofNat (ofLittleEndian l)) := by
  have hclear := (getLastD_lt_iff l).mp hsign
  have hpow : 256 ^ l.length ≤ 256 ^ 4 := Nat.pow_le_pow_right (by decide) hlen
  have hvalue : (UInt32.ofNat (ofLittleEndian l)).toNat = ofLittleEndian l :=
    UInt32.toNat_ofNat_of_lt' (show _ < 2 ^ 32 by omega)
  exact Push.number hpos hlen (hvalue.symm ▸ hclear) hvalue.symm

/-- A script says a height exactly if it starts with a push of it. -/
theorem height?_eq_some_iff {s : Script} :
    s.height? = some height ↔ ∃ push data, Push push height ∧ s.bytes = push ++ data := by
  constructor
  · obtain ⟨bytes⟩ := s
    cases bytes with
    | nil => exact nofun
    | cons push rest =>
      intro h
      simp only [height?] at h
      split_ifs at h with hzero hopcode hshort hread
      · obtain rfl := Option.some.inj h
        exact ⟨[0], rest, .zero, hzero ▸ rfl⟩
      · obtain rfl := Option.some.inj h
        exact ⟨[push], rest, push_of_opcode hopcode, rfl⟩
      · obtain rfl := Option.some.inj h
        rw [not_or, not_lt, UInt8.not_le] at hread
        have hlen : (rest.take push.toNat).length = push.toNat :=
          (List.length_take_le _ _).antisymm hread.1
        have hpos : 0 < push.toNat := by
          rw [Nat.pos_iff_ne_zero, ne_eq, ← UInt8.toNat_zero, UInt8.toNat_inj]
          exact hzero
        have hpush := push_of_number (hlen.symm ▸ hpos)
          (hlen.symm ▸ UInt8.le_iff_toNat_le.mp hshort) hread.2
        rw [hlen, UInt8.ofNat_toNat] at hpush
        exact ⟨_, rest.drop push.toNat, hpush,
          congrArg (push :: ·) (List.take_append_drop push.toNat rest).symm⟩
  · rintro ⟨push, data, hpush, hbytes⟩
    obtain rfl : s = ⟨push ++ data⟩ := by rw [← hbytes]
    exact hpush.height?_append data

theorem push_ofHeight (h : height.toNat < 2 ^ 31) : Push (ofHeight height).bytes height := by
  by_cases hzero : height = 0
  · subst hzero
    exact .zero
  · by_cases hle : height ≤ 16
    · rw [ofHeight, if_neg hzero, if_pos hle]
      exact .opcode hzero hle
    · rw [ofHeight_of_lt (UInt32.not_le.mp hle)]
      apply Push.number (length_heightNumber_pos hzero)
      · rw [length_heightNumber_le_iff]
        omega
      · exact (length_heightNumber_le_iff _ _).mp le_rfl
      · exact ofLittleEndian_heightNumber height

theorem height?_ofHeight_append (height : UInt32) (data : List UInt8) :
    ((ofHeight height).append data).height? =
      if height.toNat < 2 ^ 31 then some height else none := by
  split_ifs with hlt
  · exact (push_ofHeight hlt).height?_append data
  · have hheight : 16 < height := by
      rw [UInt32.lt_iff_toNat_lt]
      change 16 < height.toNat
      omega
    have hfive : (heightNumber height).length = 5 := by
      have hfour := (length_heightNumber_le_iff height 4).not.mpr (by omega)
      have hle := (length_heightNumber_le_iff height 5).mpr
        (show 2 * height.toNat < 256 ^ 5 by have hlt := height.toNat_lt; omega)
      omega
    rw [ofHeight_of_lt hheight, hfive]
    exact height?_of_long_push rfl

/-- What a script says that was built for a height is this height, or nothing if it is too great, and
what follows the push is not looked at. -/
theorem height?_ofHeight_append_iff (height : UInt32) (data : List UInt8) :
    (∀ said, ((ofHeight height).append data).height? = some said ↔
      said = height ∧ height.toNat < 2 ^ 31) ∧
    (((ofHeight height).append data).height? = none ↔ 2 ^ 31 ≤ height.toNat) ∧
    ((ofHeight height).append data).height? = (ofHeight height).height? := by
  have hbare : (ofHeight height).height? = ((ofHeight height).append []).height? := by
    rw [append, List.append_nil]
  rw [hbare, height?_ofHeight_append, height?_ofHeight_append]
  split_ifs with hlt
  · refine ⟨fun said => ?_, ?_, rfl⟩
    · rw [Option.some.injEq, and_iff_left hlt, eq_comm]
    · exact iff_of_false nofun (Nat.not_le.mpr hlt)
  · refine ⟨fun said => iff_of_false nofun fun h => hlt h.2, ?_, rfl⟩
    exact iff_of_true rfl (Nat.not_lt.mp hlt)

end BitcoinBlock.Script
