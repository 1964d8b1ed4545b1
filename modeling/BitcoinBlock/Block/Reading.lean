import BitcoinBlock.Block.Basic

/-!
Reading blocks. The header and the coinbase are read at once, the other transactions at once or
later, in as many steps as one likes.
-/
namespace BitcoinBlock.Block

open Wire

structure ReadOptions where
  /-- The hash that the header has to have. -/
  hash : Option Hash := none
  /-- The height that the coinbase has to agree with. -/
  height : Option UInt32 := none
  allTransactions : Bool := false
  /-- How many transactions to read at most; 0 sets no bound. -/
  limit : Nat := 0
  network : Network := .bitcoin

/-- Reads transactions until `n` are read or the data ends. -/
def decodeUpTo : Nat → Decoder (List Transaction)
  | 0 => pure []
  | n + 1 => do
    if (← get).isEmpty then return []
    let t ← Transaction.decode
    let rest ← decodeUpTo n
    return t :: rest

/-- The transactions that are read together with the header. The coinbase counts towards the
limit. A transaction takes at least one byte, so the length of the data is no bound. -/
def decodeFront (options : ReadOptions) : Decoder (List Transaction) := do
  if (← get).isEmpty then return []
  let coinbase ← Transaction.decode
  if !options.allTransactions then return [coinbase]
  let data ← get
  let others ← decodeUpTo (if options.limit = 0 then data.length else options.limit - 1)
  return coinbase :: others

def checkHash (expected : Option Hash) (actual : Hash) : Logged Unit :=
  match expected with
  | none => pure ()
  | some expected =>
    if expected = actual then pure ()
    else do
      Logged.log (.hashMismatch expected actual)
      Logged.fail .blockHashMismatch

/-- When all transactions were asked for, all that are stated have to be there. -/
def checkCount (options : ReadOptions) (found stated : Nat) : Logged Unit :=
  if options.allTransactions ∧ options.limit = 0 ∧ stated ≠ found then do
    Logged.log (.countMismatch found stated)
    Logged.fail .transactionCountMismatch
  else pure ()

def readBody (header : Header) (body : List UInt8) (options : ReadOptions) : Logged Block := do
  let (count, data) ← Logged.ofExcept (CompactSize.decode body)
  Logged.log (.parsing header.hash count.toNat)
  let (transactions, pending) ← Logged.ofExcept (decodeFront options data)
  checkCount options transactions.length count.toNat
  let b ← assemble header (transactions.map .full) options.height options.network
  return { b with pending, count := some count.toNat }

/-- Reads a block. A header with nothing behind it is a block without transactions. -/
def read (raw : List UInt8) (options : ReadOptions) : Logged Block := do
  let (header, body) ← Logged.ofExcept (Header.decode raw)
  checkHash options.hash header.hash
  if body.isEmpty then
    Logged.log (.headerOnly header.hash)
    assemble header [] options.height options.network
  else readBody header body options

/-- What a run of readings gives: the transactions before the end or a fault, the bytes behind
them, and the fault. -/
structure Batch where
  transactions : List Transaction
  rest : List UInt8
  fault : Option Error

namespace Batch

def cons (t : Transaction) (batch : Batch) : Batch :=
  { batch with transactions := t :: batch.transactions }

/-- Reads transactions until `n` are read, the data ends or one is faulty. -/
def read : Nat → List UInt8 → Batch
  | 0, data => ⟨[], data, none⟩
  | n + 1, data =>
    if data.isEmpty then ⟨[], data, none⟩
    else
      match Transaction.decode data with
      | .ok (t, rest) => cons t (read n rest)
      | .error e => ⟨[], data, some e⟩

def result (batch : Batch) : Except Error Nat :=
  match batch.fault with
  | none => .ok batch.transactions.length
  | some e => .error e

end Batch

/-- Reads up to `limit` of the pending transactions, or all for a limit of 0. Those before a faulty
one are kept. Returns how many were read. -/
def parseTransactions (limit : Nat) (b : Block) : Block × Logged Nat :=
  let batch := Batch.read (if limit = 0 then b.pending.length else limit) b.pending
  let next := { b with
    entries := b.entries ++ batch.transactions.map .full
    pending := batch.rest }
  (next, ⟨batch.result, [.parsed b.hash batch.transactions.length batch.rest.length]⟩)

end BitcoinBlock.Block
