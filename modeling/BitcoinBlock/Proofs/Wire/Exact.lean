import BitcoinBlock.Proofs.Wire.Decoder
import BitcoinBlock.Wire.Codec
import Mathlib.Tactic.SplitIfs

/-! # Exact codecs

An exact codec reads the bytes of its readable values and nothing else, and stops right behind
them. Words, hashes, compact sizes and byte strings are exact, and lists inherit exactness from
their elements.
-/
namespace BitcoinBlock.Wire

/-- The length of the list is a 64-bit number, so a compact size can state it. -/
def Fits {α : Type} (l : List α) : Prop := l.length < UInt64.size

instance {α : Type} (l : List α) : Decidable (Fits l) := inferInstanceAs (Decidable (_ < _))

theorem fits_nil {α : Type} : Fits ([] : List α) := by
  change 0 < UInt64.size
  decide

theorem Fits.mono {α β : Type} {l : List α} {m : List β} (h : Fits l) (hle : m.length ≤ l.length) :
    Fits m := hle.trans_lt h

theorem Fits.of_append {α : Type} {l m : List α} (h : Fits (l ++ m)) : Fits l ∧ Fits m := by
  constructor <;>
    apply h.mono <;>
    simp

theorem Fits.of_flatMap {α β : Type} {l : List α} {f : α → List β} (h : Fits (l.flatMap f)) {a : α}
    (ha : a ∈ l) : Fits (f a) := by
  obtain ⟨front, back, rfl⟩ := List.append_of_mem ha
  rw [List.flatMap_append, List.flatMap_cons] at h
  exact h.of_append.2.of_append.1

/-- The law of a codec without slack: it reads a value exactly where the value's bytes stand, and
the value is one that can be read back. -/
structure Codec.Exact {α : Type} (c : Codec α) (Readable : α → Prop) : Prop where
  decode_eq_ok_iff : ∀ {a : α} {input rest : List UInt8},
    c.decode input = .ok (a, rest) ↔ Readable a ∧ input = c.encode a ++ rest
  length_pos : ∀ a : α, 0 < (c.encode a).length

theorem Codec.Exact.congr {α : Type} {c : Codec α} {P Q : α → Prop} (h : c.Exact P)
    (hiff : ∀ a, P a ↔ Q a) : c.Exact Q := by
  obtain rfl : P = Q := by
    ext a
    exact hiff a
  exact h

namespace Codec

variable {α : Type} {a : α} {input rest : List UInt8}

theorem word_exact {width : Nat} {toNat : α → Nat} {ofNat : Nat → α} (hwidth : 0 < width)
    (hlt : ∀ a, toNat a < 256 ^ width) (hofNat : ∀ a, ofNat (toNat a) = a)
    (htoNat : ∀ n < 256 ^ width, toNat (ofNat n) = n) :
    (word width toNat ofNat).Exact fun _ => True where
  decode_eq_ok_iff := by
    intro a input rest
    simp only [word, Decoder.bind_eq_ok_iff, Decoder.pure_eq_ok_iff, Decoder.take_eq_ok_iff,
      true_and]
    constructor
    · rintro ⟨bytes, _, ⟨hlen, rfl⟩, rfl, rfl⟩
      have hbound : ofLittleEndian bytes < 256 ^ width := hlen ▸ ofLittleEndian_lt bytes
      rw [htoNat _ hbound, ← (eq_littleEndian_iff hbound bytes).mpr ⟨hlen, rfl⟩]
    · rintro rfl
      obtain ⟨hlen, hval⟩ := (eq_littleEndian_iff (hlt a) _).mp rfl
      exact ⟨_, rest, ⟨hlen, rfl⟩, by rw [hval, hofNat], rfl⟩
  length_pos := by simpa [word] using fun _ => hwidth

theorem u8_exact : u8.Exact fun _ => True :=
  word_exact (by decide) (fun a => a.toNat_lt) (fun _ => UInt8.ofNat_toNat)
    (fun _ h => UInt8.toNat_ofNat_of_lt' h)

theorem u16_exact : u16.Exact fun _ => True :=
  word_exact (by decide) (fun a => a.toNat_lt) (fun _ => UInt16.ofNat_toNat)
    (fun _ h => UInt16.toNat_ofNat_of_lt' h)

theorem u32_exact : u32.Exact fun _ => True :=
  word_exact (by decide) (fun a => a.toNat_lt) (fun _ => UInt32.ofNat_toNat)
    (fun _ h => UInt32.toNat_ofNat_of_lt' h)

theorem u64_exact : u64.Exact fun _ => True :=
  word_exact (by decide) (fun a => a.toNat_lt) (fun _ => UInt64.ofNat_toNat)
    (fun _ h => UInt64.toNat_ofNat_of_lt' h)

theorem i32_exact : i32.Exact fun _ => True :=
  word_exact (by decide) (fun a => a.toUInt32.toNat_lt) (fun a => by simp)
    (fun n h => by
      rw [UInt32.toUInt32_toInt32]
      exact UInt32.toNat_ofNat_of_lt' h)

theorem i64_exact : i64.Exact fun _ => True :=
  word_exact (by decide) (fun a => a.toUInt64.toNat_lt) (fun a => by simp)
    (fun n h => by
      rw [UInt64.toUInt64_toInt64]
      exact UInt64.toNat_ofNat_of_lt' h)

theorem u8_encode (b : UInt8) : u8.encode b = [b] := by
  simp [u8, word, littleEndian]

theorem u8_decode_eq_ok_iff {b : UInt8} :
    u8.decode input = .ok (b, rest) ↔ input = b :: rest := by
  rw [u8_exact.decode_eq_ok_iff, u8_encode]
  simp

theorem hash_exact : hash.Exact fun _ => True where
  decode_eq_ok_iff := by
    intro h input rest
    simp only [hash, Decoder.bind_eq_ok_iff, Decoder.take_eq_ok_iff, true_and]
    constructor
    · rintro ⟨bytes, middle, ⟨hlen, rfl⟩, hread⟩
      simp only [Hash.ofBytes?, hlen, dite_true, Decoder.pure_eq_ok_iff] at hread
      obtain ⟨rfl, rfl⟩ := hread
      rfl
    · rintro rfl
      exact ⟨h.bytes, rest, ⟨h.length_bytes, rfl⟩, by simp⟩
  length_pos := by simp [hash]

end Codec

namespace CompactSize

variable {n : UInt64} {input rest : List UInt8}

/-- What follows a marker is a number that needs at least this marker and fits behind it. -/
theorem decodeWord_eq_ok_iff {width : Nat} {least : UInt64} (hwidth : width ≤ 8) :
    decodeWord width least input = .ok (n, rest) ↔
      (least.toNat ≤ n.toNat ∧ n.toNat < 256 ^ width) ∧
        input = littleEndian width n.toNat ++ rest := by
  simp only [decodeWord, Decoder.bind_eq_ok_iff, Decoder.take_eq_ok_iff, Decoder.ite_eq_ok_iff,
    Decoder.throw_ne_ok, Decoder.pure_eq_ok_iff, and_false, false_or, UInt64.lt_iff_toNat_lt,
    not_lt]
  constructor
  · rintro ⟨bytes, _, ⟨hlen, rfl⟩, hleast, rfl, rfl⟩
    have hbound : ofLittleEndian bytes < 256 ^ width := hlen ▸ ofLittleEndian_lt bytes
    have hsize : ofLittleEndian bytes < UInt64.size :=
      hbound.trans_le (Nat.pow_le_pow_right (by decide) hwidth)
    rw [UInt64.toNat_ofNat_of_lt' hsize] at hleast ⊢
    rw [← (eq_littleEndian_iff hbound bytes).mpr ⟨hlen, rfl⟩]
    exact ⟨⟨hleast, hbound⟩, rfl⟩
  · rintro ⟨⟨hleast, hbound⟩, rfl⟩
    obtain ⟨hlen, hval⟩ := (eq_littleEndian_iff hbound _).mp rfl
    refine ⟨_, rest, ⟨hlen, rfl⟩, ?_⟩
    rw [hval, UInt64.ofNat_toNat]
    exact ⟨hleast, rfl, rfl⟩

theorem encode_eq (n : UInt64) :
    encode n =
      if n.toNat < 0xfd then [UInt8.ofNat n.toNat]
      else if n.toNat < 256 ^ 2 then 0xfd :: littleEndian 2 n.toNat
      else if n.toNat < 256 ^ 4 then 0xfe :: littleEndian 4 n.toNat
      else 0xff :: littleEndian 8 n.toNat := by
  have h2 : n ≤ 0xffff ↔ n.toNat < 256 ^ 2 := by
    rw [UInt64.le_iff_toNat_le]
    exact Nat.lt_succ_iff.symm
  have h4 : n ≤ 0xffffffff ↔ n.toNat < 256 ^ 4 := by
    rw [UInt64.le_iff_toNat_le]
    exact Nat.lt_succ_iff.symm
  have h1 : n < 0xfd ↔ n.toNat < 0xfd := UInt64.lt_iff_toNat_lt
  simp only [encode, h1, h2, h4]
  rfl

theorem encode_length_pos (n : UInt64) : 0 < (encode n).length := by
  rw [encode_eq]
  split_ifs <;> simp

theorem toNat_lt_of_ne_markers {b : UInt8} (hfd : b ≠ 0xfd) (hfe : b ≠ 0xfe) (hff : b ≠ 0xff) :
    b.toNat < 0xfd := by
  have hb : b.toNat < 256 := b.toNat_lt
  rw [ne_eq, ← UInt8.toNat_inj] at hfd hfe hff
  simp only [UInt8.reduceToNat] at hfd hfe hff
  omega

theorem decode_eq_ok_iff : decode input = .ok (n, rest) ↔ input = encode n ++ rest := by
  have hn : n.toNat < 256 ^ 8 := n.toNat_lt
  simp only [decode, Decoder.bind_eq_ok_iff, Codec.u8_decode_eq_ok_iff, Decoder.ite_eq_ok_iff,
    decodeWord_eq_ok_iff (show 2 ≤ 8 by decide), decodeWord_eq_ok_iff (show 4 ≤ 8 by decide),
    decodeWord_eq_ok_iff (show 8 ≤ 8 by decide), Decoder.pure_eq_ok_iff, encode_eq n,
    UInt64.reduceToNat]
  constructor
  · rintro ⟨marker, _, rfl, ⟨rfl, ⟨hlo, hhi⟩, rfl⟩ | ⟨hfd, ⟨rfl, ⟨hlo, hhi⟩, rfl⟩ |
      ⟨hfe, ⟨rfl, ⟨hlo, hhi⟩, rfl⟩ | ⟨hff, rfl, rfl⟩⟩⟩⟩
    · rw [if_neg (by omega), if_pos hhi, List.cons_append]
    · rw [if_neg (by omega), if_neg (by omega), if_pos hhi, List.cons_append]
    · rw [if_neg (by omega), if_neg (by omega), if_neg (by omega), List.cons_append]
    · rw [UInt8.toNat_toUInt64, if_pos (toNat_lt_of_ne_markers hfd hfe hff), UInt8.ofNat_toNat]
      rfl
  · rintro rfl
    split_ifs with h1 h2 h4
    · have hb : (UInt8.ofNat n.toNat).toNat = n.toNat :=
        UInt8.toNat_ofNat_of_lt' (h1.trans (by decide))
      have hmarker : ∀ m : UInt8, 0xfd ≤ m.toNat → UInt8.ofNat n.toNat ≠ m := by
        rintro _ hm rfl
        omega
      refine ⟨_, rest, rfl, .inr ⟨hmarker _ (by decide), .inr ⟨hmarker _ (by decide),
        .inr ⟨hmarker _ (by decide), ?_, rfl⟩⟩⟩⟩
      apply UInt64.toNat_inj.mp
      rw [UInt8.toNat_toUInt64, hb]
    · exact ⟨0xfd, _, rfl, .inl ⟨rfl, ⟨by omega, h2⟩, rfl⟩⟩
    · exact ⟨0xfe, _, rfl, .inr ⟨by decide, .inl ⟨rfl, ⟨by omega, h4⟩, rfl⟩⟩⟩
    · exact ⟨0xff, _, rfl, .inr ⟨by decide, .inr ⟨by decide, .inl ⟨rfl, ⟨by omega, hn⟩, rfl⟩⟩⟩⟩

end CompactSize

namespace Codec

variable {α : Type} {c : Codec α} {Readable : α → Prop}

theorem compactSize_exact : compactSize.Exact fun _ => True where
  decode_eq_ok_iff := by
    intro n input rest
    simpa [compactSize] using CompactSize.decode_eq_ok_iff
  length_pos := CompactSize.encode_length_pos

theorem decode_encodeLength_iff {β : Type} {l : List β} {count : UInt64}
    {input middle : List UInt8} :
    (CompactSize.decode input = .ok (count, middle) ∧ l.length = count.toNat) ↔
      Fits l ∧ count = UInt64.ofNat l.length ∧ input = encodeLength l ++ middle := by
  rw [CompactSize.decode_eq_ok_iff, encodeLength]
  constructor
  · rintro ⟨rfl, hlen⟩
    rw [Fits, hlen, UInt64.ofNat_toNat]
    exact ⟨count.toNat_lt_size, rfl, rfl⟩
  · rintro ⟨hfits, rfl, rfl⟩
    exact ⟨rfl, (UInt64.toNat_ofNat_of_lt' hfits).symm⟩

namespace Exact

theorem times_eq_ok_iff (h : c.Exact Readable) {n : Nat} {l : List α} {input rest : List UInt8} :
    c.decode.times n input = .ok (l, rest) ↔
      l.length = n ∧ (∀ a ∈ l, Readable a) ∧ input = l.flatMap c.encode ++ rest := by
  induction n generalizing l input rest with
  | zero =>
    rw [Decoder.times, Decoder.pure_eq_ok_iff, List.length_eq_zero_iff]
    constructor
    · rintro ⟨rfl, rfl⟩
      simp
    · rintro ⟨rfl, -, rfl⟩
      simp
  | succ n ih =>
    simp only [Decoder.times, Decoder.bind_eq_ok_iff, Decoder.pure_eq_ok_iff, h.decode_eq_ok_iff,
      ih]
    constructor
    · rintro ⟨a, _, ⟨ha, rfl⟩, tail, _, ⟨rfl, htail, rfl⟩, rfl, rfl⟩
      refine ⟨rfl, ?_, by rw [List.flatMap_cons, List.append_assoc]⟩
      exact List.forall_mem_cons.mpr ⟨ha, htail⟩
    · rintro ⟨hlen, hl, rfl⟩
      cases l with
      | nil => simp at hlen
      | cons a tail =>
        obtain ⟨ha, htail⟩ := List.forall_mem_cons.mp hl
        refine ⟨a, _, ⟨ha, ?_⟩, tail, rest, ⟨Nat.succ.inj hlen, htail, rfl⟩, rfl, rfl⟩
        rw [List.flatMap_cons, List.append_assoc]

theorem list (h : c.Exact Readable) :
    (Codec.list c).Exact fun l => Fits l ∧ ∀ a ∈ l, Readable a where
  decode_eq_ok_iff := by
    intro l input rest
    simp only [Codec.list, Decoder.bind_eq_ok_iff, h.times_eq_ok_iff]
    constructor
    · rintro ⟨count, _, hcount, hlen, hl, rfl⟩
      obtain ⟨hfits, -, rfl⟩ := decode_encodeLength_iff.mp ⟨hcount, hlen⟩
      exact ⟨⟨hfits, hl⟩, (List.append_assoc _ _ _).symm⟩
    · rintro ⟨⟨hfits, hl⟩, rfl⟩
      obtain ⟨hcount, hlen⟩ := decode_encodeLength_iff.mpr
        ⟨hfits, rfl, List.append_assoc _ (l.flatMap c.encode) rest⟩
      exact ⟨_, _, hcount, hlen, hl, rfl⟩
  length_pos := fun l => by
    rw [Codec.list, List.length_append]
    exact Nat.add_pos_left (CompactSize.encode_length_pos _) _

theorem length_le_length_flatMap (h : c.Exact Readable) (l : List α) :
    l.length ≤ (l.flatMap c.encode).length := by
  induction l with
  | nil => simp
  | cons a rest ih =>
    have ha := h.length_pos a
    rw [List.flatMap_cons, List.length_append, List.length_cons]
    omega

/-- Every element takes at least one byte, so what fits as bytes fits as a list. -/
theorem fits_of_fits_list (h : c.Exact Readable) {l : List α}
    (hl : Fits ((Codec.list c).encode l)) : Fits l ∧ ∀ a ∈ l, Fits (c.encode a) := by
  have helements : Fits (l.flatMap c.encode) := hl.of_append.2
  exact ⟨helements.mono (h.length_le_length_flatMap l), fun _ ha => helements.of_flatMap ha⟩

end Exact

theorem fits_of_fits_byteString {bytes : List UInt8} (h : Fits (byteString.encode bytes)) :
    Fits bytes := h.of_append.2

theorem byteString_exact : byteString.Exact Fits where
  decode_eq_ok_iff := by
    intro bytes input rest
    simp only [byteString, Decoder.bind_eq_ok_iff, Decoder.take_eq_ok_iff]
    constructor
    · rintro ⟨count, _, hcount, hlen, rfl⟩
      obtain ⟨hfits, -, rfl⟩ := decode_encodeLength_iff.mp ⟨hcount, hlen⟩
      exact ⟨hfits, (List.append_assoc _ _ _).symm⟩
    · rintro ⟨hfits, rfl⟩
      obtain ⟨hcount, hlen⟩ := decode_encodeLength_iff.mpr
        ⟨hfits, rfl, List.append_assoc _ bytes rest⟩
      exact ⟨_, _, hcount, hlen, rfl⟩
  length_pos := fun bytes => by
    rw [byteString, List.length_append]
    exact Nat.add_pos_left (CompactSize.encode_length_pos _) _

theorem Exact.eq_of_append_eq (h : c.Exact Readable) {a b : α} (ha : Readable a) (hb : Readable b)
    {rest rest' : List UInt8} (heq : c.encode a ++ rest = c.encode b ++ rest') :
    a = b ∧ rest = rest' := by
  have hdecode : c.decode (c.encode a ++ rest) = .ok (a, rest) :=
    h.decode_eq_ok_iff.mpr ⟨ha, rfl⟩
  have hdecode' : c.decode (c.encode a ++ rest) = .ok (b, rest') :=
    h.decode_eq_ok_iff.mpr ⟨hb, heq⟩
  cases hdecode.symm.trans hdecode'
  exact ⟨rfl, rfl⟩

/-- Reading at a position succeeds exactly where the value's bytes stand, and takes as many. -/
theorem Exact.decodeAt_eq_ok_iff (h : c.Exact Readable) {raw : List UInt8} {position n : Nat}
    {a : α} :
    c.decodeAt raw position = .ok (a, n) ↔
      Readable a ∧ n = (c.encode a).length ∧ (raw.drop position).take n = c.encode a := by
  simp only [Codec.decodeAt_eq_ok_iff, h.decode_eq_ok_iff]
  constructor
  · rintro ⟨rest, ⟨ha, hraw⟩, rfl⟩
    rw [hraw, List.length_append, Nat.add_sub_cancel, List.take_left]
    exact ⟨ha, rfl, rfl⟩
  · rintro ⟨ha, rfl, htake⟩
    have hsplit := List.take_append_drop (c.encode a).length (raw.drop position)
    rw [htake] at hsplit
    have hlen := congrArg List.length hsplit
    rw [List.length_append] at hlen
    exact ⟨_, ⟨ha, hsplit.symm⟩, by omega⟩

end Codec

end BitcoinBlock.Wire
