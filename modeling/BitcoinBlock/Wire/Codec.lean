import BitcoinBlock.Hash

/-! Codecs: a value's bytes, and the reading of a value from the front of a byte string. A decoder
returns the value and the bytes it did not use. -/
namespace BitcoinBlock.Wire

abbrev Decoder := StateT (List UInt8) (Except Error)

structure Codec (α : Type) where
  encode : α → List UInt8
  decode : Decoder α

namespace Decoder

variable {α β : Type}

@[simp] theorem pure_eq_ok_iff {a b : α} {input rest : List UInt8} :
    (pure a : Decoder α) input = .ok (b, rest) ↔ a = b ∧ input = rest := by
  change (Except.ok (a, input) : Except Error _) = _ ↔ _
  simp

/-- Two decoders in a row succeed when each does, the second on what the first leaves. -/
@[simp] theorem bind_eq_ok_iff {d : Decoder α} {f : α → Decoder β} {b : β}
    {input rest : List UInt8} :
    (d >>= f) input = .ok (b, rest) ↔
      ∃ a middle, d input = .ok (a, middle) ∧ f a middle = .ok (b, rest) := by
  change (d input >>= fun p => f p.1 p.2) = _ ↔ _
  rcases d input with _ | ⟨a, middle⟩
  · simp [bind, Except.bind]
  · simp only [bind, Except.bind, Except.ok.injEq]
    exact ⟨fun hf => ⟨a, middle, rfl, hf⟩, fun ⟨_, _, e, hf⟩ => by cases e; exact hf⟩

@[simp] theorem throw_ne_ok {e : Error} {a : α} {input rest : List UInt8} :
    (throw e : Decoder α) input ≠ .ok (a, rest) := by
  change (Except.error e : Except Error _) ≠ _
  simp

def take (n : Nat) : Decoder (List UInt8) := fun input =>
  let (taken, rest) := input.splitAt n
  if taken.length = n then .ok (taken, rest) else .error .endOfData

theorem take_eq_ok_iff {n : Nat} {taken input rest : List UInt8} :
    take n input = .ok (taken, rest) ↔ taken.length = n ∧ input = taken ++ rest := by
  simp only [take, List.splitAt_eq]
  split
  next h =>
    simp only [Except.ok.injEq, Prod.mk.injEq]
    constructor
    · rintro ⟨rfl, rfl⟩
      exact ⟨h, (List.take_append_drop n input).symm⟩
    · rintro ⟨rfl, rfl⟩
      simp
  next h =>
    simp only [reduceCtorEq, false_iff, not_and]
    rintro rfl rfl
    simp at h

/-- Reads the same kind of value `n` times. Every value takes at least one byte, so however large
`n` is, reading ends with the data. -/
def times (d : Decoder α) : Nat → Decoder (List α)
  | 0 => pure []
  | n + 1 => do
    let a ← d
    let rest ← times d n
    return a :: rest

end Decoder

namespace Codec

variable {α β : Type}

/-- Reads at a position of a longer byte string. Returns the value and how many bytes it took. -/
def decodeAt (c : Codec α) (raw : List UInt8) (position : Nat) : Except Error (α × Nat) := do
  let input := raw.drop position
  let (a, rest) ← c.decode input
  return (a, input.length - rest.length)

def word (width : Nat) (toNat : α → Nat) (ofNat : Nat → α) : Codec α where
  encode a := littleEndian width (toNat a)
  decode := do
    let bytes ← Decoder.take width
    return ofNat (ofLittleEndian bytes)

def u8 : Codec UInt8 := word 1 UInt8.toNat UInt8.ofNat

def u16 : Codec UInt16 := word 2 UInt16.toNat UInt16.ofNat

def u32 : Codec UInt32 := word 4 UInt32.toNat UInt32.ofNat

def u64 : Codec UInt64 := word 8 UInt64.toNat UInt64.ofNat

/-- Signed words are written in two's complement. -/
def i32 : Codec Int32 :=
  word 4 (fun n => n.toUInt32.toNat) (fun n => (UInt32.ofNat n).toInt32)

def i64 : Codec Int64 :=
  word 8 (fun n => n.toUInt64.toNat) (fun n => (UInt64.ofNat n).toInt64)

def hash : Codec Hash where
  encode h := h.bytes
  decode := do
    match Hash.ofBytes? (← Decoder.take 32) with
    | some h => return h
    | none => throw .endOfData

end Codec

/-! ## Compact sizes

A count takes one, three, five or nine bytes, and only its shortest form is accepted. It heads every
list and every byte string on the wire.
-/

namespace CompactSize

def encode (n : UInt64) : List UInt8 :=
  if n < 0xfd then [n.toUInt8]
  else if n ≤ 0xffff then 0xfd :: littleEndian 2 n.toNat
  else if n ≤ 0xffffffff then 0xfe :: littleEndian 4 n.toNat
  else 0xff :: littleEndian 8 n.toNat

/-- Reads the number after a marker; `least` is the first number that needs this marker. -/
def decodeWord (width : Nat) (least : UInt64) : Decoder UInt64 := do
  let bytes ← Decoder.take width
  let n := UInt64.ofNat (ofLittleEndian bytes)
  if n < least then throw .nonCanonicalCompactSize else return n

def decode : Decoder UInt64 := do
  let marker ← Codec.u8.decode
  if marker = 0xfd then decodeWord 2 0xfd
  else if marker = 0xfe then decodeWord 4 0x10000
  else if marker = 0xff then decodeWord 8 0x100000000
  else return marker.toUInt64

end CompactSize

namespace Codec

variable {α : Type}

def compactSize : Codec UInt64 := ⟨CompactSize.encode, CompactSize.decode⟩

def encodeLength (l : List α) : List UInt8 := CompactSize.encode (UInt64.ofNat l.length)

/-- A count, then that many values. -/
def list (c : Codec α) : Codec (List α) where
  encode l := encodeLength l ++ l.flatMap c.encode
  decode := do
    let count ← CompactSize.decode
    c.decode.times count.toNat

/-- A count, then that many bytes, read in one piece. -/
def byteString : Codec (List UInt8) where
  encode bytes := encodeLength bytes ++ bytes
  decode := do
    let count ← CompactSize.decode
    Decoder.take count.toNat

end Codec

end BitcoinBlock.Wire
