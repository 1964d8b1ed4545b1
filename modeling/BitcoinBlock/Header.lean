import BitcoinBlock.Hash
import BitcoinBlock.Wire.Codec

/-! Block headers: 80 bytes that name the block before, commit to the transactions and carry the
proof of work. -/
namespace BitcoinBlock

structure Header where
  version : UInt32 := 0
  previous : Hash := Hash.zero
  merkleRoot : Hash := Hash.zero
  timestamp : UInt32 := 0
  bits : UInt32 := 0
  nonce : UInt32 := 0
deriving DecidableEq

namespace Header

open Wire

def size : Nat := 80

def encode (h : Header) : List UInt8 :=
  Codec.u32.encode h.version ++ Codec.hash.encode h.previous ++
    Codec.hash.encode h.merkleRoot ++ Codec.u32.encode h.timestamp ++
    Codec.u32.encode h.bits ++ Codec.u32.encode h.nonce

def decodeFields : Decoder Header := do
  let version ← Codec.u32.decode
  let previous ← Codec.hash.decode
  let merkleRoot ← Codec.hash.decode
  let timestamp ← Codec.u32.decode
  let bits ← Codec.u32.decode
  let nonce ← Codec.u32.decode
  return ⟨version, previous, merkleRoot, timestamp, bits, nonce⟩

/-- A header that is cut short has the wrong size, wherever the cut is. -/
def decode : Decoder Header := fun input =>
  if (input.take size).length < size then .error .headerSize else decodeFields input

def ofBytes (bytes : List UInt8) : Except Error Header :=
  if bytes.length = size then (decode bytes).map Prod.fst else .error .headerSize

def ofHex (text : String) : Except Error Header :=
  match Text.Hex.decode text.toList with
  | .ok bytes => ofBytes bytes
  | .error _ => .error .malformedHeader

def hash (h : Header) : Hash := doubleHash h.encode

end Header

def Wire.Codec.header : Codec Header := ⟨Header.encode, Header.decode⟩

/-! ## The proposals (BIPs) that a block version signals

From some height on the version is a set of flags below the top bits 001; before, it is a number.
-/

namespace VersionBits

/-- The first height at which versions are read as flags. -/
def flagsHeight : UInt32 := 407021

/-- The first height at which miners may roll unassigned flags. -/
def rollingHeight : UInt32 := 500000

def rollingMask : UInt32 := 0x1fffe000

def hasFlag (version flag : UInt32) : Bool := version &&& flag != 0

def ofFlags (version height : UInt32) : List Nat :=
  [(true, 9),
    (hasFlag version 1, 68),
    (hasFlag version 2, 141),
    (hasFlag version 16, 91),
    (version == 0x30000000, 109),
    (hasFlag version rollingMask && rollingHeight ≤ height, 310)].filterMap
      fun (signalled, proposal) => if signalled then some proposal else none

def ofNumber (version : UInt32) : List Nat :=
  if version = 2 then [34]
  else if version = 3 then [66]
  else if version = 4 then [65]
  else if version = 0x30000000 then [109]
  else if version = 0x20000007 then [101]
  else []

def proposals (version height : UInt32) : List Nat :=
  if version >>> 29 = 1 ∧ flagsHeight ≤ height then ofFlags version height
  else if height < rollingHeight then ofNumber version
  else []

def proposalName (number : Nat) : String := "BIP" ++ toString number

def binary (version : UInt32) : String :=
  String.ofList ((List.range 32).map fun i =>
    if version.toNat.testBit (31 - i) then '1' else '0')

end VersionBits

end BitcoinBlock
