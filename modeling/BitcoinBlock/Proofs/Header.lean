import BitcoinBlock.Header
import BitcoinBlock.Proofs.Wire.Exact
import BitcoinBlock.Storage

/-! # Headers on the wire and in storage

Every 80 bytes are the bytes of exactly one header.
-/
namespace BitcoinBlock

namespace Header

open Wire

variable {h : Header} {input rest : List UInt8}

@[simp] theorem length_encode (h : Header) : h.encode.length = size := by
  simp [encode, Codec.u32, Codec.word, Codec.hash, size]

theorem decodeFields_eq_ok_iff : decodeFields input = .ok (h, rest) ↔ input = h.encode ++ rest := by
  simp only [decodeFields, encode, Decoder.bind_eq_ok_iff, Decoder.pure_eq_ok_iff,
    Codec.u32_exact.decode_eq_ok_iff, Codec.hash_exact.decode_eq_ok_iff, true_and,
    List.append_assoc]
  constructor
  · rintro ⟨version, _, rfl, previous, _, rfl, merkleRoot, _, rfl, timestamp, _, rfl, bits, _, rfl,
      nonce, _, rfl, rfl, rfl⟩
    rfl
  · rintro rfl
    exact ⟨_, _, rfl, _, _, rfl, _, _, rfl, _, _, rfl, _, _, rfl, _, _, rfl, rfl, rfl⟩

theorem decode_eq_ok_iff : decode input = .ok (h, rest) ↔ input = h.encode ++ rest := by
  rw [decode]
  split_ifs with hshort
  · simp only [false_iff]
    rintro rfl
    rw [List.length_take, List.length_append, length_encode] at hshort
    omega
  · exact decodeFields_eq_ok_iff

theorem exists_append_of_length {l : List UInt8} {m k : Nat} (hl : l.length = m + k) :
    ∃ front back, l = front ++ back ∧ front.length = m ∧ back.length = k :=
  ⟨l.take m, l.drop m, (List.take_append_drop m l).symm, by simp [hl], by simp [hl]⟩

theorem exists_u32_encode_eq {l : List UInt8} (hl : l.length = 4) :
    ∃ n, Codec.u32.encode n = l := by
  have hbound : ofLittleEndian l < 256 ^ 4 := hl ▸ ofLittleEndian_lt l
  refine ⟨UInt32.ofNat (ofLittleEndian l), ?_⟩
  rw [(eq_littleEndian_iff hbound l).mpr ⟨hl, rfl⟩, ofLittleEndian_littleEndian,
    Nat.mod_eq_of_lt hbound]
  exact congrArg (littleEndian 4) (UInt32.toNat_ofNat_of_lt' hbound)

theorem exists_encode_eq {bytes : List UInt8} (hbytes : bytes.length = size) :
    ∃ h : Header, h.encode = bytes := by
  obtain ⟨front, nonce, rfl, hfront, hnonce⟩ := exists_append_of_length (m := 76) (k := 4) hbytes
  obtain ⟨front, bits, rfl, hfront, hbits⟩ := exists_append_of_length (m := 72) (k := 4) hfront
  obtain ⟨front, timestamp, rfl, hfront, htimestamp⟩ :=
    exists_append_of_length (m := 68) (k := 4) hfront
  obtain ⟨front, merkleRoot, rfl, hfront, hmerkleRoot⟩ :=
    exists_append_of_length (m := 36) (k := 32) hfront
  obtain ⟨version, previous, rfl, hversion, hprevious⟩ :=
    exists_append_of_length (m := 4) (k := 32) hfront
  obtain ⟨version, rfl⟩ := exists_u32_encode_eq hversion
  obtain ⟨timestamp, rfl⟩ := exists_u32_encode_eq htimestamp
  obtain ⟨bits, rfl⟩ := exists_u32_encode_eq hbits
  obtain ⟨nonce, rfl⟩ := exists_u32_encode_eq hnonce
  exact ⟨⟨version, ⟨previous, hprevious⟩, ⟨merkleRoot, hmerkleRoot⟩, timestamp, bits, nonce⟩, rfl⟩

theorem ofBytes_eq_ok_iff : ofBytes input = .ok h ↔ input = h.encode := by
  rw [ofBytes]
  split_ifs with hsize
  · rw [map_eq_ok_iff]
    constructor
    · rintro ⟨⟨_, rest⟩, hread, rfl⟩
      have hsplit := decode_eq_ok_iff.mp hread
      have hrest : rest = [] := by
        rw [hsplit, List.length_append, length_encode] at hsize
        exact List.length_eq_zero_iff.mp (by omega)
      rw [hsplit, hrest, List.append_nil]
    · rintro rfl
      exact ⟨(h, []), decode_eq_ok_iff.mpr (List.append_nil _).symm, rfl⟩
  · simp only [false_iff]
    rintro rfl
    exact hsize (length_encode h)

end Header

theorem Wire.Codec.header_exact : header.Exact fun _ => True where
  decode_eq_ok_iff := by
    intro h input rest
    rw [true_and]
    exact Header.decode_eq_ok_iff
  length_pos := fun h => by
    change 0 < h.encode.length
    rw [Header.length_encode]
    decide

/-! ## Stored headers

The stored form of a header is its form on the wire. So the order of the fields is the same in both,
80 bytes are enough to read a stored header, and reading it gives what the wire reading gives.
-/

namespace Storage

open Wire

variable {input rest : List UInt8}

theorem or_shiftLeft_eq {low k : Nat} (hlow : low < 2 ^ k) (high : Nat) :
    low ||| high <<< k = low + 2 ^ k * high := by
  rw [Nat.or_comm, ← Nat.shiftLeft_add_eq_or_of_lt hlow, Nat.shiftLeft_eq, Nat.add_comm,
    Nat.mul_comm]

theorem toNat_toUInt32_shiftLeft (b : UInt8) {k : UInt32} (hk : k.toNat ≤ 24) :
    (b.toUInt32 <<< k).toNat = b.toNat <<< k.toNat := by
  have hb := b.toNat_lt
  have hpow : 2 ^ k.toNat ≤ 2 ^ 24 := Nat.pow_le_pow_right (by decide) hk
  rw [UInt32.toNat_shiftLeft, UInt8.toNat_toUInt32, Nat.mod_eq_of_lt (by omega : k.toNat < 32),
    Nat.mod_eq_of_lt]
  rw [Nat.shiftLeft_eq]
  calc b.toNat * 2 ^ k.toNat ≤ 255 * 2 ^ 24 := Nat.mul_le_mul (by omega) hpow
    _ < 2 ^ 32 := by decide

/-- Shifted bytes do not overlap, so joining them bit by bit adds them up. -/
theorem toNat_joined (a b c d : UInt8) :
    (a.toUInt32 ||| b.toUInt32 <<< 8 ||| c.toUInt32 <<< 16 ||| d.toUInt32 <<< 24).toNat =
      ofLittleEndian [a, b, c, d] := by
  have ha := a.toNat_lt
  have hb := b.toNat_lt
  have hc := c.toNat_lt
  have h₁ := or_shiftLeft_eq ha b.toNat
  have h₂ := or_shiftLeft_eq (by omega : a.toNat + 2 ^ 8 * b.toNat < 2 ^ 16) c.toNat
  have h₃ := or_shiftLeft_eq
    (by omega : a.toNat + 2 ^ 8 * b.toNat + 2 ^ 16 * c.toNat < 2 ^ 24) d.toNat
  rw [UInt32.toNat_or, UInt32.toNat_or, UInt32.toNat_or, toNat_toUInt32_shiftLeft b (by decide),
    toNat_toUInt32_shiftLeft c (by decide), toNat_toUInt32_shiftLeft d (by decide),
    UInt8.toNat_toUInt32]
  change a.toNat ||| b.toNat <<< 8 ||| c.toNat <<< 16 ||| d.toNat <<< 24 = _
  rw [h₁, h₂, h₃]
  simp only [ofLittleEndian]
  omega

theorem encodeWord_eq (n : UInt32) : encodeWord n = Codec.u32.encode n := by
  change _ = [UInt8.ofNat n.toNat, UInt8.ofNat (n.toNat / 256), UInt8.ofNat (n.toNat / 256 / 256),
    UInt8.ofNat (n.toNat / 256 / 256 / 256)]
  simp [encodeWord, ← UInt8.toNat_inj, Nat.shiftRight_eq_div_pow, Nat.div_div_eq_div_mul]

theorem decodeWord?_append (n : UInt32) (rest : List UInt8) :
    decodeWord? (Codec.u32.encode n ++ rest) = some (n, rest) := by
  change some (_, rest) = some (n, rest)
  rw [Option.some.injEq, Prod.mk.injEq, ← UInt32.toNat_inj, toNat_joined]
  refine ⟨?_, rfl⟩
  change ofLittleEndian (littleEndian 4 n.toNat) = n.toNat
  rw [ofLittleEndian_littleEndian]
  exact Nat.mod_eq_of_lt n.toNat_lt

theorem decodeWord?_eq_none (h : input.length < 4) : decodeWord? input = none := by
  unfold decodeWord?
  split
  · simp only [List.length_cons] at h
    omega
  · rfl

theorem decodeWord?_eq_some_iff {n : UInt32} :
    decodeWord? input = some (n, rest) ↔ input = Codec.u32.encode n ++ rest := by
  constructor
  · intro hread
    have hlen : 4 ≤ input.length := by
      by_contra hshort
      rw [decodeWord?_eq_none (by omega)] at hread
      cases hread
    obtain ⟨m, hm⟩ := Header.exists_u32_encode_eq (List.length_take_of_le hlen)
    have hinput : input = Codec.u32.encode m ++ input.drop 4 := by
      rw [hm, List.take_append_drop]
    rw [hinput, decodeWord?_append] at hread
    cases hread
    exact hinput
  · rintro rfl
    exact decodeWord?_append n rest

theorem decodeHash?_eq_some_iff {h : Hash} :
    decodeHash? input = some (h, rest) ↔ input = Codec.hash.encode h ++ rest := by
  simp only [decodeHash?, Option.map_eq_some_iff, Prod.mk.injEq]
  constructor
  · rintro ⟨other, hread, rfl, rfl⟩
    rw [Hash.ofBytes?] at hread
    split_ifs at hread
    cases hread
    exact (List.take_append_drop hashSize input).symm
  · rintro rfl
    have hsize : hashSize = h.bytes.length := h.length_bytes.symm
    refine ⟨h, ?_, rfl, ?_⟩
    · change Hash.ofBytes? ((h.bytes ++ rest).take hashSize) = some h
      rw [hsize, List.take_left, Hash.ofBytes?_bytes]
    · change (h.bytes ++ rest).drop hashSize = rest
      rw [hsize, List.drop_left]

theorem encodeHeader_eq (h : Header) : encodeHeader h = h.encode := by
  simp only [encodeHeader, Header.encode, encodeWord_eq, encodeHash, Codec.hash, List.append_assoc]

theorem decodeHeader?_eq_some_iff {h : Header} :
    decodeHeader? input = some (h, rest) ↔ input = h.encode ++ rest := by
  simp only [decodeHeader?, Header.encode, Option.bind_eq_bind, Option.bind_eq_some_iff,
    Prod.exists, decodeWord?_eq_some_iff, decodeHash?_eq_some_iff, Option.pure_def,
    Option.some.injEq, Prod.mk.injEq, List.append_assoc]
  constructor
  · rintro ⟨version, _, rfl, previous, _, rfl, merkleRoot, _, rfl, timestamp, _, rfl, bits, _, rfl,
      nonce, _, rfl, rfl, rfl⟩
    rfl
  · rintro rfl
    exact ⟨_, _, rfl, _, _, rfl, _, _, rfl, _, _, rfl, _, _, rfl, _, _, rfl, rfl, rfl⟩

/-- A header is stored as it goes over the wire. Bytes are read as a stored header exactly if there
are 80 of them or more, and the header is the one that the first 80 are on the wire. -/
theorem stored_header_eq_wire (h : Header) (bytes : List UInt8) :
    encodeHeader h = h.encode ∧ (encodeHeader h).length = headerSize ∧
    ((decodeHeader? bytes).isSome = true ↔ 80 ≤ bytes.length) ∧
    ∀ (read : Header) (rest : List UInt8), decodeHeader? bytes = some (read, rest) ↔
      80 ≤ bytes.length ∧ Header.ofBytes (bytes.take 80) = .ok read ∧ rest = bytes.drop 80 := by
  refine ⟨encodeHeader_eq h, ?_, ?_, fun read rest => ?_⟩
  · rw [encodeHeader_eq, Header.length_encode]
    rfl
  · rw [Option.isSome_iff_exists, Prod.exists]
    simp only [decodeHeader?_eq_some_iff]
    constructor
    · rintro ⟨read, rest, rfl⟩
      rw [List.length_append, Header.length_encode]
      exact Nat.le_add_right _ _
    · intro hlen
      obtain ⟨read, hread⟩ := Header.exists_encode_eq (List.length_take_of_le hlen)
      refine ⟨read, bytes.drop 80, ?_⟩
      rw [hread]
      exact (List.take_append_drop 80 bytes).symm
  · rw [decodeHeader?_eq_some_iff, Header.ofBytes_eq_ok_iff]
    have hsize : 80 = read.encode.length := (Header.length_encode read).symm
    constructor
    · rintro rfl
      refine ⟨?_, ?_, ?_⟩
      · rw [List.length_append, ← hsize]
        exact Nat.le_add_right _ _
      · rw [hsize, List.take_left]
      · rw [hsize, List.drop_left]
    · rintro ⟨-, hread, rfl⟩
      rw [← hread, List.take_append_drop]

end Storage

end BitcoinBlock
