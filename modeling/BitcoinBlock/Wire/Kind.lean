import BitcoinBlock.Header
import BitcoinBlock.Transaction

/-! The kinds of value that occur on the wire, lists of them included, each with its type and its
codec. -/
namespace BitcoinBlock.Wire

inductive Kind where
  | u8
  | u16
  | u32
  | u64
  | i32
  | i64
  | hash
  | compactSize
  | script
  | header
  | input
  | output
  | transaction
  | list (element : Kind)
deriving DecidableEq, Repr

namespace Kind

abbrev Value : Kind → Type
  | u8 => UInt8
  | u16 => UInt16
  | u32 => UInt32
  | u64 => UInt64
  | i32 => Int32
  | i64 => Int64
  | hash => Hash
  | compactSize => UInt64
  | script => Script
  | header => Header
  | input => Transaction.Input
  | output => Transaction.Output
  | transaction => Transaction
  | list element => List element.Value

def codec : (kind : Kind) → Codec kind.Value
  | u8 => Codec.u8
  | u16 => Codec.u16
  | u32 => Codec.u32
  | u64 => Codec.u64
  | i32 => Codec.i32
  | i64 => Codec.i64
  | hash => Codec.hash
  | compactSize => Codec.compactSize
  | script => Codec.script
  | header => Codec.header
  | input => Codec.input
  | output => Codec.output
  | transaction => Codec.transaction
  | list element => Codec.list element.codec

end Kind

end BitcoinBlock.Wire
