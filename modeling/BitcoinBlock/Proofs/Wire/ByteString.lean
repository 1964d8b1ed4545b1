import BitcoinBlock.Proofs.Wire.Exact
import BitcoinBlock.Proofs.Wire.Streaming

/-! # Bytes in one piece and one by one

A byte string is taken from the wire at once, a list of bytes one byte after another. Both take the
same bytes and stop for the same fault, however many bytes the count in front of them states.
-/
namespace BitcoinBlock.Wire

variable {α β : Type}

theorem Decoder.take_eq_ite (n : Nat) (input : List UInt8) :
    take n input =
      if n ≤ input.length then .ok (input.take n, input.drop n) else .error .endOfData := by
  by_cases h : n ≤ input.length
  · rw [if_pos h]
    exact take_eq_ok_iff.mpr ⟨List.length_take_of_le h, (List.take_append_drop n input).symm⟩
  · rw [if_neg h]
    exact take_of_length_lt (Nat.lt_of_not_le h)

namespace Codec

theorem flatMap_u8_encode (bytes : List UInt8) : bytes.flatMap u8.encode = bytes := by
  have hsingle : u8.encode = fun b => [b] := funext u8_encode
  rw [hsingle]
  exact List.flatMap_singleton' bytes

/-- Single bytes run out exactly where a piece of as many bytes is cut short. -/
theorem times_u8_decode (n : Nat) : u8.decode.times n = Decoder.take n := by
  funext input
  induction n generalizing input with
  | zero => exact (Decoder.take_eq_ite 0 input).symm
  | succ n ih =>
    cases input with
    | nil => rfl
    | cons b rest =>
      have hb : u8.decode (b :: rest) = .ok (b, rest) := u8_decode_eq_ok_iff.mpr rfl
      rw [Decoder.times, Decoder.bind_apply, hb, ok_bind, Decoder.bind_apply, ih,
        Decoder.take_eq_ite, Decoder.take_eq_ite, List.length_cons]
      by_cases hn : n ≤ rest.length
      · rw [if_pos hn, if_pos (Nat.succ_le_succ hn)]
        rfl
      · rw [if_neg hn, if_neg (fun h => hn (Nat.le_of_succ_le_succ h))]
        rfl

theorem list_u8_eq_byteString : list u8 = byteString := by
  simp only [list, byteString, flatMap_u8_encode, times_u8_decode]

theorem decodeAt_map {c : Codec α} {d : Codec β} {f : α → β}
    (h : ∀ input, (c.decode input).map (Prod.map f id) = d.decode input) (raw : List UInt8)
    (position : Nat) :
    (c.decodeAt raw position).map (Prod.map f id) = d.decodeAt raw position := by
  rw [decodeAt, decodeAt, ← h]
  cases c.decode (raw.drop position) with
  | error e => rfl
  | ok found => rfl

theorem script_decode_map (input : List UInt8) :
    (script.decode input).map (Prod.map Script.bytes id) = byteString.decode input := by
  change ((byteString.decode >>= fun bytes => pure ⟨bytes⟩ : Decoder Script) input).map _ = _
  rw [Decoder.bind_apply]
  cases byteString.decode input with
  | error e => rfl
  | ok found => rfl

theorem byteString_decode_encode_append (count : UInt64) (data : List UInt8) :
    byteString.decode (CompactSize.encode count ++ data) =
      if count.toNat ≤ data.length then .ok (data.take count.toNat, data.drop count.toNat)
      else .error .endOfData := by
  have hcount : CompactSize.decode (CompactSize.encode count ++ data) = .ok (count, data) :=
    CompactSize.decode_eq_ok_iff.mpr rfl
  change (CompactSize.decode >>= fun count => Decoder.take count.toNat) _ = _
  rw [Decoder.bind_apply, hcount, ok_bind]
  exact Decoder.take_eq_ite count.toNat data

/-- Scripts are read at every position like lists of bytes, faults included, and written like them.
Up to the greatest count that can be stated, bytes are found if as many follow, and otherwise the
data have ended. -/
theorem script_eq_list_u8 :
    (∀ (raw : List UInt8) (position : Nat),
      (script.decodeAt raw position).map (Prod.map Script.bytes id) =
        (list u8).decodeAt raw position) ∧
    (∀ bytes : List UInt8, script.encode ⟨bytes⟩ = (list u8).encode bytes) ∧
    ∀ (count : UInt64) (data : List UInt8),
      (list u8).decode (CompactSize.encode count ++ data) =
        if count.toNat ≤ data.length then .ok (data.take count.toNat, data.drop count.toNat)
        else .error .endOfData := by
  rw [list_u8_eq_byteString]
  refine ⟨?_, fun bytes => rfl, byteString_decode_encode_append⟩
  exact decodeAt_map script_decode_map

end Codec

end BitcoinBlock.Wire
