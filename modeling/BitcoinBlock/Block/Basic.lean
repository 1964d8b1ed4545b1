import BitcoinBlock.Basic
import BitcoinBlock.Hash
import BitcoinBlock.Header
import BitcoinBlock.Logged
import BitcoinBlock.ProofOfWork
import BitcoinBlock.Transaction

/-! Blocks. A block holds its first transactions as values or as bare ids, and the rest as bytes that
nobody has read yet. -/
namespace BitcoinBlock

namespace Block

inductive Entry where
  | full (transaction : Transaction)
  | bare (id : Hash)
deriving DecidableEq

namespace Entry

def id : Entry → Hash
  | full t => t.id
  | bare id => id

def transaction? : Entry → Option Transaction
  | full t => some t
  | bare _ => none

end Entry

end Block

structure Block where
  header : Header
  entries : List Block.Entry
  /-- The transactions behind `entries`, not yet read. -/
  pending : List UInt8 := []
  /-- How many transactions the block states to have. -/
  count : Option Nat
  height : Option UInt32
  confirmations : Option UInt32 := none
  network : Network
deriving DecidableEq

namespace Block

open Wire

def hash (b : Block) : Hash := b.header.hash

def ids (b : Block) : List Hash := b.entries.map Entry.id

def coinbase? (b : Block) : Option Transaction := b.entries.head?.bind Entry.transaction?

/-- The height in the coinbase script. Blocks of version 0 and 1 carry none (BIP34). -/
def coinbaseHeight? (b : Block) : Option UInt32 :=
  if b.header.version ≤ 1 then none
  else do
    let coinbase ← b.coinbase?
    let input ← coinbase.inputs.head?
    input.script.height?

/-- A block from its parts. The height in the coinbase wins over a missing one, and has to agree
with a stated one. -/
def assemble (header : Header) (entries : List Entry) (height : Option UInt32)
    (network : Network) : Logged Block :=
  let count := if entries.isEmpty then none else some entries.length
  let b : Block := { header, entries, count, height, network }
  match b.coinbaseHeight?, height with
  | none, _ => pure b
  | some encoded, none => pure { b with height := some encoded }
  | some encoded, some stated =>
    if stated = encoded then pure b
    else do
      Logged.log (.heightMismatch b.hash stated encoded)
      Logged.fail .heightMismatch

def withConfirmations (b : Block) (confirmations : UInt32) : Block :=
  { b with confirmations := some confirmations }

def target (b : Block) : Target := CompactBits.target b.header.bits

def difficulty (b : Block) : Float := ProofOfWork.difficulty b.header.bits

def checkProofOfWork (b : Block) : Bool := ProofOfWork.check b.hash b.header.bits

/-- The root over all ids. Every transaction has to be known. -/
def merkleRoot (b : Block) : Except Error Hash :=
  if b.count = some b.entries.length then
    (Merkle.root b.ids).elim (.error .incorrectTransactionCount) .ok
  else .error .incorrectTransactionCount

def checkMerkleRoot (b : Block) : Except Error Bool := do
  return (← b.merkleRoot) == b.header.merkleRoot

def transactionsOf : List Entry → Except Error (List Transaction)
  | [] => .ok []
  | .full t :: rest => (transactionsOf rest).map (t :: ·)
  | .bare _ :: _ => .error .missingTransactionData

def serialize (b : Block) : Except Error (List UInt8) :=
  if b.entries.isEmpty ∨ b.count ≠ some b.entries.length then .error .incorrectTransactionCount
  else do
    let transactions ← transactionsOf b.entries
    return b.header.encode ++ (Codec.list Codec.transaction).encode transactions

def proposals (b : Block) : List Nat :=
  b.height.elim [] (VersionBits.proposals b.header.version)

def display (b : Block) : String :=
  "<Block(" ++ b.hash.display ++ ", " ++ b.height.elim "None" (fun h => toString h.toNat) ++
    ", transactions: " ++ b.count.elim "None" toString ++ ")>"

/-! ## What there is to show about a block, in one flat record -/

structure Summary where
  hash : String
  height : Option UInt32
  header : Header
  target : String
  difficulty : Float
  count : Option Nat
  ids : List String
  confirmations : Option UInt32

def summary (b : Block) : Summary where
  hash := b.hash.display
  height := b.height
  header := b.header
  target := CompactBits.targetHex b.header.bits
  difficulty := b.difficulty
  count := b.count
  ids := b.ids.map Hash.display
  confirmations := b.confirmations

end Block

end BitcoinBlock
