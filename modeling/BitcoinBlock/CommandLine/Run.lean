import BitcoinBlock.Basic
import BitcoinBlock.Block.Reading
import BitcoinBlock.CommandLine.Arguments
import BitcoinBlock.CommandLine.Report
import BitcoinBlock.Json
import BitcoinBlock.Text

/-!
The command as a function of its arguments, the files it may read and its environment. Arguments
are checked first, then the settings are read, then the subcommand runs. The settings file is a JSON
object with any of three fields, or a list of their values in order.
-/
namespace BitcoinBlock.CommandLine

structure Settings where
  network : Network := .bitcoin
  /-- Whether decoding reads all transactions even when it is not asked to. -/
  allTransactions : Bool := false
  /-- Which reports to show. What a command prints does not depend on it. -/
  logLevel : Option String := none

/-- A network is given by its name, or as an object whose only field has that name and no
value. -/
def network? : Json → Option Network
  | .string name => Network.ofName? name
  | .object [(name, .null)] => Network.ofName? name
  | _ => none

def logLevel? : Json → Option (Option String)
  | .null => some none
  | .string s => some (some s)
  | _ => none

namespace Settings

def setNetwork (s : Settings) (value : Json) : Option Settings := do
  return { s with network := ← network? value }

def setAllTransactions (s : Settings) : Json → Option Settings
  | .bool b => some { s with allTransactions := b }
  | _ => none

def setLogLevel (s : Settings) (value : Json) : Option Settings := do
  return { s with logLevel := ← logLevel? value }

/-- The fields by name, in the order in which a list gives them. -/
def setters : List (String × (Settings → Json → Option Settings)) :=
  [("network", setNetwork), ("parse_transactions", setAllTransactions),
    ("log_level", setLogLevel)]

def setField (s : Settings) (field : String × Json) : Option Settings := do
  (← setters.lookup field.1) s field.2

/-- A list may stop early, but not run on. -/
def setItems (s : Settings) : List (Settings → Json → Option Settings) → List Json →
    Option Settings
  | _, [] => some s
  | [], _ :: _ => none
  | set :: sets, value :: values => do setItems (← set s value) sets values

def ofJson? : Json → Option Settings
  | .object fields =>
    if (fields.map Prod.fst).Nodup then fields.foldlM setField {} else none
  | .array items => setItems {} (setters.map Prod.snd) items
  | _ => none

end Settings

/-! ## The run of the command -/

inductive FileFault where
  | missing
  | directory
  | notText
  | other (description : String)

def FileFault.message : FileFault → String
  | missing => "No such file or directory (os error 2)"
  | directory => "Is a directory (os error 21)"
  | notText => "stream did not contain valid UTF-8"
  | other description => description

structure Surroundings where
  /-- The settings file to use when the arguments name none. -/
  configFile : Option String
  file : String → Except FileFault (List UInt8)

inductive Failure where
  | unreadableSettings (path : String) (fault : FileFault)
  | invalidSettings (path : String)
  | unreadableBlock (path : String) (fault : FileFault)
  | invalidHex (fault : Text.Hex.Fault)
  | invalidBlockHash (error : Error)
  | undecodedBlock (error : Error)
  | undecodedHeader (error : Error)
  | refusedBlock (error : Error)

namespace Failure

def context : Failure → String
  | unreadableSettings path _ => "failed to read config file " ++ path
  | invalidSettings path => "invalid config file " ++ path
  | unreadableBlock path _ => "failed to read block file " ++ path
  | invalidHex _ => "block is not a valid hex string"
  | invalidBlockHash _ => "invalid block hash"
  | undecodedBlock _ => "failed to decode block"
  | undecodedHeader _ => "failed to decode block header"
  | refusedBlock error => error.message

def cause? : Failure → Option String
  | unreadableSettings _ fault | unreadableBlock _ fault => some fault.message
  | invalidSettings _ | refusedBlock _ => none
  | invalidHex fault => some fault.message
  | invalidBlockHash error | undecodedBlock error | undecodedHeader error => some error.message

def message (f : Failure) : String :=
  "Error: " ++ f.context ++ f.cause?.elim "" ("\n\nCaused by:\n    " ++ ·)

end Failure

inductive Outcome where
  | printed (text : String)
  | failed (failure : Failure)
  | misused

def versionText : String := "bcl-block 1.2.0"

def helpText : String :=
  "\n".intercalate [
    "Inspect raw Bitcoin blocks and block headers",
    "",
    "Usage: bcl-block [OPTIONS] <COMMAND>",
    "",
    "Commands:",
    "  decode  Decode a serialized block",
    "  header  Decode an 80 byte block header",
    "  bips    List the BIPs a block version signals at a height",
    "  target  Expand compact bits into target and difficulty",
    "  help    Print this message or the help of the given subcommand(s)",
    "",
    "Options:",
    "      --config <CONFIG>    JSON configuration file, defaults to the BCL_CONFIG_FILE " ++
      "environment variable",
    "      --network <NETWORK>  Network the blocks belong to, overrides the configured network",
    "      --json               Output machine-readable JSON",
    "  -h, --help               Print help",
    "  -V, --version            Print version"]

def utf8? (bytes : List UInt8) : Option String := String.fromUTF8? ⟨bytes.toArray⟩

def readSettings (s : Surroundings) (path : String) : Except Failure Settings := do
  let bytes ← (s.file path).mapError (.unreadableSettings path)
  let some text := utf8? bytes | throw (.unreadableSettings path .notText)
  let some settings := (Json.parse? text).bind Settings.ofJson? | throw (.invalidSettings path)
  return settings

/-- The settings file named by the arguments, else the one of the environment, else defaults. -/
def loadSettings (s : Surroundings) (config : Option String) : Except Failure Settings :=
  match config <|> s.configFile with
  | some path => readSettings s path
  | none => .ok {}

/-- A block in hexadecimal, with white space around and `0x` in front if one likes. -/
def decodeHex (text : String) : Except Text.Hex.Fault (List UInt8) :=
  Text.Hex.decode (Text.Hex.dropMarker (Text.trim text.toList))

/-- A block file holds hexadecimal text or the bytes themselves. -/
def blockOfFile (bytes : List UInt8) : List UInt8 :=
  ((utf8? bytes).bind fun text => (decodeHex text).toOption).getD bytes

def readSource (s : Surroundings) : Source → Except Failure (List UInt8)
  | .text hex => (decodeHex hex).mapError .invalidHex
  | .file path => blockOfFile <$> (s.file path).mapError (.unreadableBlock path)

def readHash (text : String) : Except Failure Hash :=
  (Hash.ofHex .big text).mapError .invalidBlockHash

def decode (s : Surroundings) (settings : Settings) (network : Network)
    (request : DecodeRequest) : Except Failure Block := do
  let raw ← readSource s request.source
  let hash ← request.blockHash.mapM readHash
  (Block.read raw {
    hash
    height := request.height
    allTransactions := request.allTransactions || settings.allTransactions
    limit := request.limit
    network }).result.mapError .undecodedBlock

/-- A header alone, as a block without transactions. -/
def blockOfHeader (header : Header) (height : Option UInt32) (network : Network) :
    Except Failure Block :=
  (Block.assemble header [] height network).result.mapError .refusedBlock

def decodeHeader (network : Network) (hex : String) : Except Failure Block := do
  let header ← (Header.ofHex (String.ofList (Text.trim hex.toList))).mapError .undecodedHeader
  blockOfHeader header none network

def report (s : Surroundings) (invocation : Invocation) : Except Failure Report := do
  let settings ← loadSettings s invocation.config
  let network := invocation.network.getD settings.network
  match invocation.subcommand with
  | .decode request => .block <$> decode s settings network request
  | .header hex => .block <$> decodeHeader network hex
  | .bips version height =>
    (Report.bips · height) <$> blockOfHeader { version } (some height) network
  | .target bits => return .target bits

def run (s : Surroundings) (arguments : List String) : Outcome :=
  match Request.ofArguments arguments with
  | none => .misused
  | some .help => .printed helpText
  | some .version => .printed versionText
  | some (.run invocation) =>
    match report s invocation with
    | .ok r => .printed (if invocation.json then r.json.pretty else r.text)
    | .error failure => .failed failure

end BitcoinBlock.CommandLine
