/-!
What all the rest speaks of: what can go wrong when blocks are read, written, checked or mined, the
order of bytes, and the networks. Sizes are words of 64 bits, so every count on the wire is a size,
and nothing can go wrong in taking it for one.
-/
namespace BitcoinBlock

inductive Error where
  | endOfData
  | malformedHeader
  | headerSize
  | nonCanonicalCompactSize
  | malformedTransaction
  | malformedScript
  | invalidHex
  | unencodableTarget
  | blockHashMismatch
  | transactionCountMismatch
  | heightMismatch
  | incorrectTransactionCount
  | missingTransactionData
  | nonceExhausted
  | unknownNetwork
deriving DecidableEq, Repr

namespace Error

def message : Error → String
  | endOfData => "unexpected end of data"
  | malformedHeader => "malformed block header"
  | headerSize => "block header must be 80 bytes"
  | nonCanonicalCompactSize => "non-canonical variable length integer"
  | malformedTransaction => "malformed transaction"
  | malformedScript => "malformed script"
  | invalidHex => "invalid hex string"
  | unencodableTarget => "target can not be encoded as compact bits"
  | blockHashMismatch => "provided block hash does not match calculated block hash"
  | transactionCountMismatch =>
      "number of parsed transactions differs from block transaction count"
  | heightMismatch => "specified block height differs from BIP34 coinbase height"
  | incorrectTransactionCount =>
      "block contains incorrect number of transactions, can not serialize"
  | missingTransactionData => "block contains transaction ids without transaction data"
  | nonceExhausted => "no nonce satisfies the block target"
  | unknownNetwork => "unknown network"

end Error

/-! ## Numbers as byte strings of fixed width, in either order of significance -/

/-- Which end of a number comes first: `little` is the order on the wire, `big` the order in
which people read. -/
inductive ByteOrder where
  | little
  | big
deriving DecidableEq, Repr

namespace ByteOrder

/-- Turns a little-endian list into this order, and a list in this order into a little-endian
one. -/
def arrange {α : Type} : ByteOrder → List α → List α
  | little, l => l
  | big, l => l.reverse

@[simp] theorem length_arrange {α : Type} (order : ByteOrder) (l : List α) :
    (order.arrange l).length = l.length := by
  cases order <;> simp [arrange]

@[simp] theorem arrange_arrange {α : Type} (order : ByteOrder) (l : List α) :
    order.arrange (order.arrange l) = l := by
  cases order <;> simp [arrange]

end ByteOrder

/-- The low `width` bytes of `n`, the least significant first. -/
def littleEndian : Nat → Nat → List UInt8
  | 0, _ => []
  | width + 1, n => UInt8.ofNat n :: littleEndian width (n / 256)

@[simp] theorem length_littleEndian (width n : Nat) : (littleEndian width n).length = width := by
  induction width generalizing n with
  | zero => rfl
  | succ width ih => simp [littleEndian, ih]

/-- The number that a byte string denotes, the least significant byte first. -/
def ofLittleEndian : List UInt8 → Nat
  | [] => 0
  | b :: rest => b.toNat + 256 * ofLittleEndian rest

def bigEndian (width n : Nat) : List UInt8 := (littleEndian width n).reverse

@[simp] theorem length_bigEndian (width n : Nat) : (bigEndian width n).length = width := by
  simp [bigEndian]

/-! ## The networks whose blocks are read -/

inductive Network where
  | bitcoin
  | testnet
  | regtest
  | signet
  | litecoin
  | litecoinTestnet
deriving DecidableEq, Repr, Inhabited

namespace Network

def all : List Network := [bitcoin, testnet, regtest, signet, litecoin, litecoinTestnet]

def name : Network → String
  | bitcoin => "bitcoin"
  | testnet => "testnet"
  | regtest => "regtest"
  | signet => "signet"
  | litecoin => "litecoin"
  | litecoinTestnet => "litecoin_testnet"

def ofName? (name : String) : Option Network := all.find? (fun n => n.name == name)

def ofName (name : String) : Except Error Network :=
  (ofName? name).elim (.error .unknownNetwork) .ok

theorem ofName_name (n : Network) : ofName n.name = .ok n := by
  cases n <;> rfl

end Network

end BitcoinBlock
