import BitcoinBlock.Basic
import BitcoinBlock.Text

/-!
Hashes, the function that makes them, and the root over a list of them. A hash has 32 bytes, kept as
on the wire. Read as a number or shown to people, the last byte counts most.
-/
namespace BitcoinBlock

structure Hash where
  bytes : List UInt8
  length_bytes : bytes.length = 32
deriving DecidableEq

namespace Hash

@[ext] theorem ext {a b : Hash} (h : a.bytes = b.bytes) : a = b := by
  cases a
  cases b
  simp_all

attribute [simp] length_bytes

def ofBytes? (bytes : List UInt8) : Option Hash :=
  if h : bytes.length = 32 then some ⟨bytes, h⟩ else none

@[simp] theorem ofBytes?_bytes (h : Hash) : ofBytes? h.bytes = some h := by
  simp [ofBytes?]

def zero : Hash := ⟨List.replicate 32 0, List.length_replicate⟩

def isZero (h : Hash) : Bool := h == zero

def toBytes (order : ByteOrder) (h : Hash) : List UInt8 := order.arrange h.bytes

def ofOrdered? (order : ByteOrder) (bytes : List UInt8) : Option Hash :=
  ofBytes? (order.arrange bytes)

@[simp] theorem ofOrdered?_toBytes (order : ByteOrder) (h : Hash) :
    ofOrdered? order (h.toBytes order) = some h := by
  simp [ofOrdered?, toBytes]

def toHex (order : ByteOrder) (h : Hash) : String := Text.Hex.encode (h.toBytes order)

/-- The text by which people know the hash. -/
def display (h : Hash) : String := h.toHex .big

def ofHex (order : ByteOrder) (text : String) : Except Error Hash :=
  match Text.Hex.decode (Text.Hex.dropMarkers text.toList) with
  | .ok bytes => (ofOrdered? order bytes).elim (.error .invalidHex) .ok
  | .error _ => .error .invalidHex

/-- The number that the hash denotes when it is compared with a target. -/
def toWord (h : Hash) : BitVec 256 := BitVec.ofNat 256 (ofLittleEndian h.bytes)

end Hash

/-! ## SHA-256, and the double hash that identifies blocks and transactions -/

namespace Sha256

structure State where
  a : UInt32
  b : UInt32
  c : UInt32
  d : UInt32
  e : UInt32
  f : UInt32
  g : UInt32
  h : UInt32

/-- The fractions of the square roots of the first eight primes. -/
def start : State :=
  ⟨0x6a09e667, 0xbb67ae85, 0x3c6ef372, 0xa54ff53a, 0x510e527f, 0x9b05688c, 0x1f83d9ab, 0x5be0cd19⟩

/-- The fractions of the cube roots of the first 64 primes. -/
def roundConstants : List UInt32 :=
  [0x428a2f98, 0x71374491, 0xb5c0fbcf, 0xe9b5dba5, 0x3956c25b, 0x59f111f1, 0x923f82a4, 0xab1c5ed5,
   0xd807aa98, 0x12835b01, 0x243185be, 0x550c7dc3, 0x72be5d74, 0x80deb1fe, 0x9bdc06a7, 0xc19bf174,
   0xe49b69c1, 0xefbe4786, 0x0fc19dc6, 0x240ca1cc, 0x2de92c6f, 0x4a7484aa, 0x5cb0a9dc, 0x76f988da,
   0x983e5152, 0xa831c66d, 0xb00327c8, 0xbf597fc7, 0xc6e00bf3, 0xd5a79147, 0x06ca6351, 0x14292967,
   0x27b70a85, 0x2e1b2138, 0x4d2c6dfc, 0x53380d13, 0x650a7354, 0x766a0abb, 0x81c2c92e, 0x92722c85,
   0xa2bfe8a1, 0xa81a664b, 0xc24b8b70, 0xc76c51a3, 0xd192e819, 0xd6990624, 0xf40e3585, 0x106aa070,
   0x19a4c116, 0x1e376c08, 0x2748774c, 0x34b0bcb5, 0x391c0cb3, 0x4ed8aa4a, 0x5b9cca4f, 0x682e6ff3,
   0x748f82ee, 0x78a5636f, 0x84c87814, 0x8cc70208, 0x90befffa, 0xa4506ceb, 0xbef9a3f7, 0xc67178f2]

def rotate (x n : UInt32) : UInt32 := (x >>> n) ||| (x <<< (32 - n))

def smallSigma0 (x : UInt32) : UInt32 := rotate x 7 ^^^ rotate x 18 ^^^ (x >>> 3)

def smallSigma1 (x : UInt32) : UInt32 := rotate x 17 ^^^ rotate x 19 ^^^ (x >>> 10)

def bigSigma0 (x : UInt32) : UInt32 := rotate x 2 ^^^ rotate x 13 ^^^ rotate x 22

def bigSigma1 (x : UInt32) : UInt32 := rotate x 6 ^^^ rotate x 11 ^^^ rotate x 25

/-- One of 64 steps, with the sum of its constant and its schedule word. -/
def step (s : State) (word : UInt32) : State :=
  let choice := (s.e &&& s.f) ^^^ (~~~s.e &&& s.g)
  let majority := (s.a &&& s.b) ^^^ (s.a &&& s.c) ^^^ (s.b &&& s.c)
  let t := s.h + bigSigma1 s.e + choice + word
  ⟨t + bigSigma0 s.a + majority, s.a, s.b, s.c, s.d + t, s.e, s.f, s.g⟩

def State.add (s t : State) : State :=
  ⟨s.a + t.a, s.b + t.b, s.c + t.c, s.d + t.d, s.e + t.e, s.f + t.f, s.g + t.g, s.h + t.h⟩

def words : List UInt8 → List UInt32
  | a :: b :: c :: d :: rest =>
      ((a.toUInt32 <<< 24) ||| (b.toUInt32 <<< 16) ||| (c.toUInt32 <<< 8) ||| d.toUInt32) ::
        words rest
  | _ => []

/-- Adds `n` words to a schedule whose newest word stands first. -/
def extend : Nat → List UInt32 → List UInt32
  | 0, done => done
  | n + 1, done =>
      extend n ((smallSigma1 (done.getD 1 0) + done.getD 6 0 + smallSigma0 (done.getD 14 0) +
        done.getD 15 0) :: done)

def schedule (block : List UInt8) : List UInt32 := (extend 48 (words block).reverse).reverse

def compress (s : State) (block : List UInt8) : State :=
  s.add ((List.zipWith (· + ·) roundConstants (schedule block)).foldl step s)

def absorb : Nat → State → List UInt8 → State
  | 0, s, _ => s
  | n + 1, s, message => absorb n (compress s (message.take 64)) (message.drop 64)

/-- A one bit, zeros up to eight bytes before the end of a block, and the length in bits. -/
def padding (length : Nat) : List UInt8 :=
  0x80 :: (List.replicate ((119 - length % 64) % 64) 0 ++ bigEndian 8 (8 * length))

def State.bytes (s : State) : List UInt8 :=
  [s.a, s.b, s.c, s.d, s.e, s.f, s.g, s.h].flatMap (fun w => bigEndian 4 w.toNat)

theorem State.length_bytes (s : State) : s.bytes.length = 32 := by
  simp [State.bytes]

def digest (message : List UInt8) : Hash :=
  let padded := message ++ padding message.length
  let final := absorb (padded.length / 64) start padded
  ⟨final.bytes, final.length_bytes⟩

end Sha256

/-- The hash of the hash: the identity of whatever `message` writes down. -/
def doubleHash (message : List UInt8) : Hash := Sha256.digest (Sha256.digest message).bytes

/-! ## Merkle roots

Each level hashes the one below in pairs, and an odd level pairs its last hash with itself.
-/

namespace Merkle

def step (left right : List UInt8) : Hash := doubleHash (left ++ right)

def join (left right : Hash) : Hash := step left.bytes right.bytes

def parents : List Hash → List Hash
  | [] => []
  | [last] => [join last last]
  | left :: right :: rest => join left right :: parents rest

theorem length_parents : ∀ level : List Hash, (parents level).length = (level.length + 1) / 2
  | [] => rfl
  | [_] => by simp [parents]
  | _ :: _ :: rest => by
    simp only [parents, List.length_cons, length_parents rest]
    omega

/-- The hash that remains at the top; an empty list has none. -/
def root : List Hash → Option Hash
  | [] => none
  | [top] => some top
  | left :: right :: rest => root (parents (left :: right :: rest))
termination_by level => level.length
decreasing_by
  simp only [length_parents, List.length_cons]
  omega

end Merkle

end BitcoinBlock
