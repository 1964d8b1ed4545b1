import BitcoinBlock.Block.Basic
import BitcoinBlock.Decimal
import BitcoinBlock.Json

/-! What the command prints about blocks, versions and targets, as text or as JSON. -/
namespace BitcoinBlock.CommandLine

/-- In text a difficulty never has an exponent. -/
def plainDifficulty : Decimal.Style where
  tie := .up
  isPlain := fun _ => true
  pointZero := false

def jsonDifficulty : Decimal.Style where
  tie := .toEven
  isPlain := fun power => -5 ≤ power ∧ power < 16
  pointZero := true

def jsonFloat (x : Float) : Json := .number (jsonDifficulty.render x)

def jsonWord (n : UInt32) : Json := .ofNat n.toNat

def hexWord (n : UInt32) : String := "0x" ++ Text.Hex.encode (bigEndian 4 n.toNat)

/-- What is to be printed, in both forms. -/
inductive Report where
  | block (b : Block)
  | bips (b : Block) (height : UInt32)
  | target (bits : UInt32)

namespace Report

def proposalNames (proposals : List Nat) : List String :=
  proposals.map VersionBits.proposalName

def blockLines (b : Block) : List String :=
  let s := b.summary
  [b.display,
    "network       " ++ b.network.name,
    "version       " ++ hexWord s.header.version ++ " " ++ VersionBits.binary s.header.version,
    "prev_block    " ++ s.header.previous.display,
    "merkle_root   " ++ s.header.merkleRoot.display,
    "timestamp     " ++ toString s.header.timestamp.toNat,
    "bits          " ++ hexWord s.header.bits,
    "nonce         " ++ toString s.header.nonce.toNat,
    "target        " ++ s.target,
    "difficulty    " ++ plainDifficulty.render s.difficulty,
    "proof_of_work " ++ toString b.checkProofOfWork] ++
    (if b.proposals.isEmpty then []
      else ["bips          " ++ ", ".intercalate (proposalNames b.proposals)]) ++
    s.ids.map ("tx            " ++ ·)

def blockJson (b : Block) : Json :=
  let s := b.summary
  .object [
    ("block_hash", .string s.hash),
    ("height", .ofOption jsonWord s.height),
    ("version", jsonWord s.header.version),
    ("prev_block", .string s.header.previous.display),
    ("merkle_root", .string s.header.merkleRoot.display),
    ("timestamp", jsonWord s.header.timestamp),
    ("bits", jsonWord s.header.bits),
    ("nonce", jsonWord s.header.nonce),
    ("target", .string s.target),
    ("difficulty", jsonFloat s.difficulty),
    ("tx_count", .ofOption .ofNat s.count),
    ("transactions", .strings s.ids),
    ("confirmations", .ofOption jsonWord s.confirmations),
    ("network", .string b.network.name),
    ("version_bips", .strings (proposalNames b.proposals)),
    ("proof_of_work", .bool b.checkProofOfWork)]

def bipsText (b : Block) : String :=
  " ".intercalate (VersionBits.binary b.header.version :: proposalNames b.proposals)

def bipsJson (b : Block) (height : UInt32) : Json :=
  .object [
    ("version", jsonWord b.header.version),
    ("version_bin", .string (VersionBits.binary b.header.version)),
    ("height", jsonWord height),
    ("bips", .strings (proposalNames b.proposals))]

def targetText (bits : UInt32) : String :=
  "target " ++ CompactBits.targetHex bits ++ "\ndifficulty " ++
    plainDifficulty.render (ProofOfWork.difficulty bits)

def targetJson (bits : UInt32) : Json :=
  .object [
    ("bits", jsonWord bits),
    ("target", .string (CompactBits.targetHex bits)),
    ("difficulty", jsonFloat (ProofOfWork.difficulty bits))]

def text : Report → String
  | block b => "\n".intercalate (blockLines b)
  | bips b _ => bipsText b
  | target bits => targetText bits

def json : Report → Json
  | block b => blockJson b
  | bips b height => bipsJson b height
  | target bits => targetJson bits

end Report

end BitcoinBlock.CommandLine
