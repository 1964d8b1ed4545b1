import BitcoinBlock.ProofOfWork
import BitcoinBlock.Proofs.Text.Hex
import BitcoinBlock.Proofs.Wire.Decoder
import Mathlib.Data.Nat.Digits.Defs

/-! # Proof of work and hashes as they are displayed

A hash is shown with the byte that counts most in front, and so is a target. So the eye that compares
the two texts from the left compares the numbers, also where the target is zero or not shown at all.
-/
namespace BitcoinBlock

theorem Hash.toNat_toWord (h : Hash) : h.toWord.toNat = ofLittleEndian h.bytes := by
  have hlt : ofLittleEndian h.bytes < 256 ^ 32 := h.length_bytes ▸ ofLittleEndian_lt h.bytes
  rw [toWord, BitVec.toNat_ofNat]
  exact Nat.mod_eq_of_lt hlt

theorem Target.ofLittleEndian_bytes (t : Target) :
    ofLittleEndian (littleEndian 32 t.toNat) = t.toNat := by
  rw [ofLittleEndian_littleEndian]
  exact Nat.mod_eq_of_lt t.isLt

/-- Hashes and targets are shown in as many digits, so their texts are in the order of the numbers. -/
theorem Hash.toHex_lt_toHex_iff (h : Hash) (t : Target) :
    h.toHex .big < t.toHex ↔ h.toWord < t := by
  have hlen : (h.toBytes .big).length = (bigEndian 32 t.toNat).length := by
    rw [toBytes, ByteOrder.length_arrange, length_bytes, length_bigEndian]
  rw [toHex, Target.toHex, Text.Hex.encode_lt_encode_iff, lt_iff_ofLittleEndian_reverse_lt hlen,
    bigEndian, toBytes, ByteOrder.arrange, List.reverse_reverse, List.reverse_reverse,
    Target.ofLittleEndian_bytes, BitVec.lt_def, toNat_toWord]

namespace ProofOfWork

/-- A hash has the proof of work exactly if its text comes before that of the target. Where there are
no bits the target has no text, and where they stand for no target it is all zeros, and no hash comes
before either. -/
theorem check_iff_toHex_lt_targetHex (hash : Hash) (bits : UInt32) :
    check hash bits = true ↔ hash.toHex .big < CompactBits.targetHex bits := by
  rw [check_iff, CompactBits.targetHex]
  by_cases hbits : bits = 0
  · subst hbits
    have hnone : ¬hash.toHex .big < "" := by
      rw [String.lt_iff]
      exact List.not_lt_nil _
    exact iff_of_false BitVec.not_lt_zero hnone
  · rw [if_neg hbits, Hash.toHex_lt_toHex_iff]

end ProofOfWork

/-! ## Hashes as texts

A hash has one text in each order of its bytes, up to the case of letters and the `0x` in front. The
two texts have the same pairs of digits, one the other way round, and the one for people is the
number of the hash in base 16.
-/

namespace Hash

open Text Text.Hex

theorem ofOrdered?_eq_some_iff {order : ByteOrder} {bytes : List UInt8} {h : Hash} :
    ofOrdered? order bytes = some h ↔ bytes = h.toBytes order := by
  constructor
  · intro hread
    rw [ofOrdered?, ofBytes?] at hread
    split_ifs at hread with hlen
    cases hread
    rw [toBytes, ByteOrder.arrange_arrange]
  · rintro rfl
    exact ofOrdered?_toBytes order h

theorem ofHex_eq_ok_iff {order : ByteOrder} {text : String} {h : Hash} :
    ofHex order text = .ok h ↔
      ∃ body, Unmarked text.toList body ∧ SameButCase body (h.toHex order).toList := by
  have hread : ofHex order text = .ok h ↔
      decode (dropMarkers text.toList) = .ok (h.toBytes order) := by
    rw [ofHex]
    cases decode (dropMarkers text.toList) with
    | error fault => simp
    | ok bytes =>
      rw [Except.ok.injEq, ← ofOrdered?_eq_some_iff]
      cases hread : ofOrdered? order bytes with
      | none => simp [hread]
      | some hash => simp [hread]
  rw [hread, decode_eq_ok_iff]
  simp only [← dropMarkers_eq_iff, exists_eq_left', toHex]

theorem ofHex_eq_error_iff {order : ByteOrder} {text : String} :
    ofHex order text = .error .invalidHex ↔ ∀ h, ofHex order text ≠ .ok h := by
  rw [ofHex]
  cases decode (dropMarkers text.toList) with
  | error fault => simp
  | ok bytes =>
    cases hread : ofOrdered? order bytes with
    | none => simp [hread]
    | some hash => simp [hread]

/-- The halves of each byte, the low one first. -/
def halves (bytes : List UInt8) : List Nat :=
  bytes.flatMap fun b => [b.toNat % 16, b.toNat / 16]

theorem lt_of_mem_halves {bytes : List UInt8} {d : Nat} (hd : d ∈ halves bytes) : d < 16 := by
  obtain ⟨b, -, hb⟩ := List.mem_flatMap.mp hd
  have hlt := b.toNat_lt
  rw [List.mem_cons, List.mem_singleton] at hb
  omega

theorem ofDigits_halves (bytes : List UInt8) :
    Nat.ofDigits 16 (halves bytes) = ofLittleEndian bytes := by
  induction bytes with
  | nil => rfl
  | cons b rest ih =>
    have hcons : halves (b :: rest) = b.toNat % 16 :: b.toNat / 16 :: halves rest := rfl
    rw [hcons, Nat.ofDigits_cons, Nat.ofDigits_cons, ih, ofLittleEndian]
    omega

theorem toList_toHex_big (h : Hash) :
    (h.toHex .big).toList = (halves h.bytes).reverse.map Nat.digitChar := by
  rw [toHex, encode, String.toList_ofList, halves, List.reverse_flatMap, List.map_flatMap]
  rfl

theorem toList_toHex (order : ByteOrder) (h : Hash) :
    (h.toHex order).toList = (order.arrange (h.bytes.map digits)).flatten := by
  rw [toHex, encode, String.toList_ofList, List.flatMap_def, toBytes]
  cases order with
  | little => rfl
  | big => rw [ByteOrder.arrange, ByteOrder.arrange, List.map_reverse]

/-- A text is read as a hash exactly if it is the text of the hash behind its `0x`, and every other
text is invalid. The text in one order has the pairs of digits of the other in reverse, and the text
for people is the number in base 16. -/
theorem ofHex_reads_toHex (order : ByteOrder) (text : String) (h : Hash) :
    (ofHex order text = .ok h ↔
      ∃ body, Unmarked text.toList body ∧ SameButCase body (h.toHex order).toList) ∧
    (ofHex order text = .error .invalidHex ↔
      ¬∃ (other : Hash) (body : List Char),
        Unmarked text.toList body ∧ SameButCase body (other.toHex order).toList) ∧
    (∃ pairs : List (List Char), pairs.length = 32 ∧ (∀ pair ∈ pairs, pair.length = 2) ∧
      (h.toHex .little).toList = pairs.flatten ∧
      (h.toHex .big).toList = pairs.reverse.flatten) ∧
    ∃ ds : List Nat, (∀ d ∈ ds, d < 16) ∧ (h.toHex .big).toList = ds.map Nat.digitChar ∧
      h.toWord.toNat = Nat.ofDigits 16 ds.reverse := by
  refine ⟨ofHex_eq_ok_iff, ?_, ⟨h.bytes.map digits, ?_, ?_, toList_toHex .little h,
    toList_toHex .big h⟩, (halves h.bytes).reverse, ?_, toList_toHex_big h, ?_⟩
  · rw [ofHex_eq_error_iff, not_exists]
    exact forall_congr' fun other => not_congr ofHex_eq_ok_iff
  · rw [List.length_map, length_bytes]
  · intro pair hpair
    obtain ⟨b, -, rfl⟩ := List.mem_map.mp hpair
    rfl
  · intro d hd
    exact lt_of_mem_halves (List.mem_reverse.mp hd)
  · rw [List.reverse_reverse, ofDigits_halves, toNat_toWord]

end Hash

end BitcoinBlock
