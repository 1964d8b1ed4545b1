import BitcoinBlock.Hash
import BitcoinBlock.Wire.Codec

/-!
Scripts, kept as bytes, and the transactions that hold them. A coinbase script starts with the block
height (BIP34). A height is pushed as a signed number, so a byte of zeros follows when its top bit
would read as a sign.
-/
namespace BitcoinBlock

structure Script where
  bytes : List UInt8
deriving DecidableEq, Repr

namespace Script

def empty : Script := ⟨[]⟩

def append (s : Script) (bytes : List UInt8) : Script := ⟨s.bytes ++ bytes⟩

def toHex (s : Script) : String := Text.Hex.encode s.bytes

def ofHex (text : String) : Except Error Script :=
  match Text.Hex.decode text.toList with
  | .ok bytes => .ok ⟨bytes⟩
  | .error _ => .error .malformedScript

/-- Drops zeros at the most significant end. -/
def trimZeros (bytes : List UInt8) : List UInt8 :=
  (bytes.reverse.dropWhile (· == 0)).reverse

/-- Adds a zero byte when the top bit of the last one is set. -/
def withSign (bytes : List UInt8) : List UInt8 :=
  if 0x80 ≤ bytes.getLastD 0 then bytes ++ [0] else bytes

/-- The shortest push of a height: an opcode of its own up to 16, then a length and a number. -/
def ofHeight (height : UInt32) : Script :=
  if height = 0 then ⟨[0]⟩
  else if height ≤ 16 then ⟨[0x50 + height.toUInt8]⟩
  else
    let number := withSign (trimZeros (littleEndian 4 height.toNat))
    ⟨UInt8.ofNat number.length :: number⟩

/-- The height that a script starts with. Pushes of up to four bytes count, minimal or not;
negative numbers do not. -/
def height? (s : Script) : Option UInt32 :=
  match s.bytes with
  | [] => none
  | push :: rest =>
    if push = 0 then some 0
    else if 0x51 ≤ push ∧ push ≤ 0x60 then some (push - 0x50).toUInt32
    else if push ≤ 4 then
      let number := rest.take push.toNat
      if number.length < push.toNat ∨ 0x80 ≤ number.getLastD 0 then none
      else some (UInt32.ofNat (ofLittleEndian number))
    else none

end Script

namespace Wire.Codec

def script : Codec Script where
  encode s := byteString.encode s.bytes
  decode := do return ⟨← byteString.decode⟩

end Wire.Codec

/-! ## Transactions: what they spend, what they pay, and the witnesses of their inputs -/

namespace Transaction

structure Input where
  previousHash : Hash
  previousIndex : UInt32
  script : Script
  sequence : UInt32
  witness : List (List UInt8) := []
deriving DecidableEq

structure Output where
  value : Int64
  script : Script
deriving DecidableEq

namespace Input

/-- The input of a block's first transaction, which spends nothing. -/
def coinbase (script : Script) : Input where
  previousHash := Hash.zero
  previousIndex := 0xffffffff
  script := script
  sequence := 0xffffffff

def isCoinbase (i : Input) : Bool := i.previousHash.isZero && i.previousIndex == 0xffffffff

def hasWitness (i : Input) : Bool := !i.witness.isEmpty

end Input

end Transaction

structure Transaction where
  version : Int32
  inputs : List Transaction.Input
  outputs : List Transaction.Output
  lockTime : UInt32
deriving DecidableEq

namespace Transaction

def hasWitness (t : Transaction) : Bool := t.inputs.any Input.hasWitness

def isCoinbase (t : Transaction) : Bool :=
  match t.inputs with
  | [input] => input.isCoinbase
  | _ => false

end Transaction

/-! ## Transactions on the wire

Witnesses stand apart from their inputs, behind the outputs, and only when an empty input list and a
flag byte announce them. Leaving the witnesses out gives the bytes behind the transaction's id.
-/

namespace Wire.Codec

open Transaction

/-- The witness of an input is not part of these bytes; it reads back empty. -/
def input : Codec Input where
  encode i := hash.encode i.previousHash ++ u32.encode i.previousIndex ++
    script.encode i.script ++ u32.encode i.sequence
  decode := do
    let previousHash ← hash.decode
    let previousIndex ← u32.decode
    let script ← script.decode
    let sequence ← u32.decode
    return { previousHash, previousIndex, script, sequence }

def output : Codec Output where
  encode o := i64.encode o.value ++ script.encode o.script
  decode := do
    let value ← i64.decode
    let script ← script.decode
    return ⟨value, script⟩

def inputs : Codec (List Input) := list input

def outputs : Codec (List Output) := list output

def witness : Codec (List (List UInt8)) := list byteString

end Wire.Codec

namespace Transaction

open Wire

def witnessMarker : List UInt8 := [0, 1]

/-- The bytes without witnesses. -/
def encodeStripped (t : Transaction) : List UInt8 :=
  Codec.i32.encode t.version ++ Codec.inputs.encode t.inputs ++
    Codec.outputs.encode t.outputs ++ Codec.u32.encode t.lockTime

def encodeWitnessed (t : Transaction) : List UInt8 :=
  Codec.i32.encode t.version ++ witnessMarker ++ Codec.inputs.encode t.inputs ++
    Codec.outputs.encode t.outputs ++
    t.inputs.flatMap (fun i => Codec.witness.encode i.witness) ++ Codec.u32.encode t.lockTime

def encode (t : Transaction) : List UInt8 :=
  if t.hasWitness then t.encodeWitnessed else t.encodeStripped

def decodeWitnesses : List Input → Decoder (List Input)
  | [] => pure []
  | i :: rest => do
    let witness ← Codec.witness.decode
    let others ← decodeWitnesses rest
    return { i with witness } :: others

/-- What follows an empty input list: a flag of zero stands for no outputs, a flag of one for
inputs, outputs and witnesses, at least one of which is not empty. -/
def decodeFlagged : Decoder (List Input × List Output) := do
  let flag ← Codec.u8.decode
  if flag = 0 then return ([], [])
  else
    let bare ← Codec.inputs.decode
    let outputs ← Codec.outputs.decode
    if flag &&& 1 = 0 then throw .malformedTransaction
    else
      let inputs ← decodeWitnesses bare
      if flag = 1 ∧ inputs.any Input.hasWitness then return (inputs, outputs)
      else throw .malformedTransaction

def decodeLists : Decoder (List Input × List Output) := do
  let listed ← Codec.inputs.decode
  if listed.isEmpty then decodeFlagged else return (listed, ← Codec.outputs.decode)

def decode : Decoder Transaction := do
  let version ← Codec.i32.decode
  let (inputs, outputs) ← decodeLists
  let lockTime ← Codec.u32.decode
  return { version, inputs, outputs, lockTime }

def ofBytes (bytes : List UInt8) : Except Error Transaction := do
  let (t, rest) ← decode bytes
  if rest.isEmpty then return t else throw .malformedTransaction

def ofHex (text : String) : Except Error Transaction :=
  match Text.Hex.decode text.toList with
  | .ok bytes => ofBytes bytes
  | .error _ => .error .invalidHex

/-- The id by which blocks and inputs refer to the transaction. -/
def id (t : Transaction) : Hash := doubleHash t.encodeStripped

/-- The hash of the whole transaction, witnesses included. -/
def hash (t : Transaction) : Hash := doubleHash t.encode

def size (t : Transaction) : Nat := t.encode.length

end Transaction

def Wire.Codec.transaction : Codec Transaction := ⟨Transaction.encode, Transaction.decode⟩

end BitcoinBlock
