import BitcoinBlock.Block.Basic

/-!
Templates of blocks to be mined: the fields of the header, and the transactions behind a coinbase
that carries the height. A template is built step by step from its height. Mining takes the least
nonce that meets the target.
-/
namespace BitcoinBlock.Block

open Transaction

structure Template where
  height : UInt32
  version : UInt32 := 0x20000000
  previous : Hash := Hash.zero
  timestamp : UInt32 := 0
  bits : UInt32 := 0x207fffff
  /-- What follows the height in the coinbase script. -/
  coinbaseData : List UInt8 := []
  coinbaseOutput : Output := ⟨5000000000, Script.empty⟩
  transactions : List Transaction := []
  network : Network := .regtest

namespace Template

/-- Takes the nearest target in compact bits that is not above `target`. -/
def withTarget (t : Template) (target : Target) : Except Error Template := do
  return { t with bits := ← CompactBits.ofTarget target }

def addTransaction (t : Template) (transaction : Transaction) : Template :=
  { t with transactions := t.transactions ++ [transaction] }

inductive Step where
  | version (version : UInt32)
  | previous (previous : Hash)
  | timestamp (timestamp : UInt32)
  | bits (bits : UInt32)
  | target (target : Target)
  | network (network : Network)
  | coinbaseData (data : List UInt8)
  | coinbaseOutput (output : Output)
  | transaction (transaction : Transaction)

def apply (t : Template) : Step → Except Error Template
  | .version version => .ok { t with version }
  | .previous previous => .ok { t with previous }
  | .timestamp timestamp => .ok { t with timestamp }
  | .bits bits => .ok { t with bits }
  | .target target => t.withTarget target
  | .network network => .ok { t with network }
  | .coinbaseData data => .ok { t with coinbaseData := data }
  | .coinbaseOutput output => .ok { t with coinbaseOutput := output }
  | .transaction transaction => .ok (t.addTransaction transaction)

/-- The template after all steps, unless one of them fails. -/
def build (t : Template) (steps : List Step) : Except Error Template := steps.foldlM apply t

def coinbase (t : Template) : Transaction where
  version := 1
  inputs := [Input.coinbase ((Script.ofHeight t.height).append t.coinbaseData)]
  outputs := [t.coinbaseOutput]
  lockTime := 0

def allTransactions (t : Template) : List Transaction := t.coinbase :: t.transactions

def header (t : Template) (merkleRoot : Hash) (nonce : UInt32) : Header where
  version := t.version
  previous := t.previous
  merkleRoot := merkleRoot
  timestamp := t.timestamp
  bits := t.bits
  nonce := nonce

end Template

/-- The first of the `n` nonces from `nonce` on that passes. -/
def findNonce (passes : UInt32 → Bool) : Nat → UInt32 → Option UInt32
  | 0, _ => none
  | n + 1, nonce => if passes nonce then some nonce else findNonce passes n (nonce + 1)

namespace Template

/-- The least nonce whose header meets the target. None does for the target zero. -/
def nonce? (t : Template) (merkleRoot : Hash) : Option UInt32 :=
  if CompactBits.target t.bits = 0 then none
  else
    findNonce (fun nonce => ProofOfWork.check (t.header merkleRoot nonce).hash t.bits) UInt32.size 0

def mine (t : Template) : Logged Block :=
  match Merkle.root (t.allTransactions.map Transaction.id) with
  | none => Logged.fail .incorrectTransactionCount
  | some merkleRoot =>
    match t.nonce? merkleRoot with
    | none => Logged.fail .nonceExhausted
    | some nonce => do
      Logged.log (.mined t.height nonce)
      assemble (t.header merkleRoot nonce) (t.allTransactions.map .full) (some t.height) t.network

end Template

end BitcoinBlock.Block
