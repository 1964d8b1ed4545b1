import BitcoinBlock.Basic
import BitcoinBlock.Header

/-!
The stored form of hashes, headers and networks (SCALE): fields one after another, words with the
least significant byte first, a network as its index. Every form has one length.
-/
namespace BitcoinBlock.Storage

def encodeWord (n : UInt32) : List UInt8 :=
  [n.toUInt8, (n >>> 8).toUInt8, (n >>> 16).toUInt8, (n >>> 24).toUInt8]

def decodeWord? : List UInt8 → Option (UInt32 × List UInt8)
  | a :: b :: c :: d :: rest =>
      some (a.toUInt32 ||| b.toUInt32 <<< 8 ||| c.toUInt32 <<< 16 ||| d.toUInt32 <<< 24, rest)
  | _ => none

def hashSize : Nat := 32

def encodeHash (h : Hash) : List UInt8 := h.bytes

def decodeHash? (bytes : List UInt8) : Option (Hash × List UInt8) :=
  (Hash.ofBytes? (bytes.take hashSize)).map fun h => (h, bytes.drop hashSize)

def headerSize : Nat := 4 + hashSize + hashSize + 4 + 4 + 4

def encodeHeader (h : Header) : List UInt8 :=
  encodeWord h.version ++ (encodeHash h.previous ++ (encodeHash h.merkleRoot ++
    (encodeWord h.timestamp ++ (encodeWord h.bits ++ encodeWord h.nonce))))

def decodeHeader? (bytes : List UInt8) : Option (Header × List UInt8) := do
  let (version, bytes) ← decodeWord? bytes
  let (previous, bytes) ← decodeHash? bytes
  let (merkleRoot, bytes) ← decodeHash? bytes
  let (timestamp, bytes) ← decodeWord? bytes
  let (bits, bytes) ← decodeWord? bytes
  let (nonce, bytes) ← decodeWord? bytes
  return (⟨version, previous, merkleRoot, timestamp, bits, nonce⟩, bytes)

def encodeNetwork (n : Network) : List UInt8 := [UInt8.ofNat (Network.all.idxOf n)]

def decodeNetwork? : List UInt8 → Option (Network × List UInt8)
  | [] => none
  | index :: rest => Network.all[index.toNat]?.map fun n => (n, rest)

end BitcoinBlock.Storage
