import BitcoinBlock.Basic
import BitcoinBlock.Text

/-!
The arguments of the command. Options that concern every subcommand may stand before or after its
name; where one stands in both places, the later one counts. Within one place no option may be
repeated.
-/
namespace BitcoinBlock.CommandLine

inductive Source where
  | text (hex : String)
  | file (path : String)

structure DecodeRequest where
  source : Source
  allTransactions : Bool
  limit : Nat
  blockHash : Option String
  height : Option UInt32

inductive Subcommand where
  | decode (request : DecodeRequest)
  | header (hex : String)
  | bips (version height : UInt32)
  | target (bits : UInt32)

structure Invocation where
  config : Option String
  network : Option Network
  json : Bool
  subcommand : Subcommand

inductive Request where
  | help
  | version
  | run (invocation : Invocation)

inductive OptionName where
  | config
  | network
  | json
  | file
  | parseTransactions
  | limit
  | blockHash
  | height
deriving DecidableEq, Repr

namespace OptionName

def text : OptionName → String
  | config => "config"
  | network => "network"
  | json => "json"
  | file => "file"
  | parseTransactions => "parse-transactions"
  | limit => "limit"
  | blockHash => "block-hash"
  | height => "height"

def takesValue : OptionName → Bool
  | json | parseTransactions => false
  | _ => true

def general : List OptionName := [config, network, json]

end OptionName

inductive Argument where
  | operand (text : String)
  | long (name : String) (value : Option String)
  | short (letters : List Char)
  /-- Everything behind it is an operand. -/
  | endOfOptions

namespace Argument

/-- The name of a long option, and the value behind the first equals sign. -/
def ofLong (text : List Char) : Argument :=
  match text.span (· != '=') with
  | (name, _ :: value) => .long (String.ofList name) (some (String.ofList value))
  | (name, []) => .long (String.ofList name) none

/-- A lone hyphen is an operand. -/
def ofText (text : String) : Argument :=
  match text.toList with
  | ['-', '-'] => .endOfOptions
  | '-' :: '-' :: rest => ofLong rest
  | '-' :: letter :: rest => .short (letter :: rest)
  | _ => .operand text

end Argument

/-- A value of its own argument must not look like an option. -/
def isValue (text : String) : Bool :=
  match Argument.ofText text with
  | .operand _ => true
  | _ => false

/-- The options and operands of one place. -/
structure Given where
  config : Option String := none
  network : Option Network := none
  json : Bool := false
  file : Option String := none
  parseTransactions : Bool := false
  limit : Option Nat := none
  blockHash : Option String := none
  height : Option UInt32 := none
  operands : List String := []

namespace Given

def fresh {α : Type} (old : Option α) (new : Option α) : Option (Option α) :=
  if old.isSome || new.isNone then none else some new

def path? (text : String) : Option String := if text.isEmpty then none else some text

def limit? (text : String) : Option Nat := (Text.Numeral.unsigned 10 UInt64.size text.toList).toOption

def word? (text : String) : Option UInt32 := (Text.Numeral.word text.toList).toOption

def set (g : Given) (name : OptionName) (value : String) : Option Given :=
  match name with
  | .config => do return { g with config := ← fresh g.config (path? value) }
  | .network => do return { g with network := ← fresh g.network (Network.ofName? value) }
  | .file => do return { g with file := ← fresh g.file (path? value) }
  | .limit => do return { g with limit := ← fresh g.limit (limit? value) }
  | .blockHash => do return { g with blockHash := ← fresh g.blockHash (some value) }
  | .height => do return { g with height := ← fresh g.height (word? value) }
  | .json | .parseTransactions => none

def raise (g : Given) (name : OptionName) : Option Given :=
  match name with
  | .json => if g.json then none else some { g with json := true }
  | .parseTransactions =>
    if g.parseTransactions then none else some { g with parseTransactions := true }
  | _ => none

def addOperands (g : Given) (texts : List String) : Given :=
  { g with operands := g.operands ++ texts }

end Given

/-- How the reading of one place ends. -/
inductive Scan where
  | help
  | version
  | subcommand (given : Given) (name : String) (rest : List String)
  | finished (given : Given)

/-- Reads the arguments of one place, in which the options `names` are known. Before the
subcommand (`outer`) the first operand names it and ends the place. -/
def scan (outer : Bool) (names : List OptionName) : Given → List String → Option Scan
  | g, [] => some (.finished g)
  | g, argument :: rest =>
    match Argument.ofText argument with
    | .endOfOptions => some (.finished (g.addOperands rest))
    | .operand text =>
      if outer then some (.subcommand g text rest)
      else scan outer names (g.addOperands [text]) rest
    | .short letters =>
      if letters.head? = some 'h' then some .help
      else if outer && letters.head? = some 'V' then some .version
      else none
    | .long name value =>
      if name = "help" then if value.isNone then some .help else none
      else if outer && name = "version" then if value.isNone then some .version else none
      else
        match names.find? (fun n => n.text == name), value, rest with
        | none, _, _ => none
        | some option, some value, rest => do scan outer names (← g.set option value) rest
        | some option, none, rest =>
          if option.takesValue then
            match rest with
            | value :: rest =>
              if isValue value then do scan outer names (← g.set option value) rest else none
            | [] => none
          else do scan outer names (← g.raise option) rest

def subcommandOptions? (name : String) : Option (List OptionName) :=
  match name with
  | "decode" => some [.file, .parseTransactions, .limit, .blockHash, .height]
  | "header" => some []
  | "bips" => some [.height]
  | "target" => some []
  | _ => none

/-- A block is given as text or as a file, and not as both. -/
def source? (g : Given) : Option Source :=
  match g.operands, g.file with
  | [hex], none => some (.text hex)
  | [], some path => some (.file path)
  | _, _ => none

def subcommand? (name : String) (g : Given) : Option Subcommand :=
  match name, g.operands with
  | "decode", _ => do
    return .decode {
      source := ← source? g
      allTransactions := g.parseTransactions
      limit := g.limit.getD 0
      blockHash := g.blockHash
      height := g.height }
  | "header", [hex] => some (.header hex)
  | "bips", [version] => do return .bips (← Given.word? version) (← g.height)
  | "target", [bits] => do return .target (← Given.word? bits)
  | _, _ => none

/-- Help is for the whole command or for one subcommand. -/
def helpFor? : List String → Option Request
  | [] => some .help
  | [name] => if name = "help" then some .help else (subcommandOptions? name).map fun _ => .help
  | _ => none

def Request.ofArguments (arguments : List String) : Option Request := do
  match ← scan true OptionName.general {} arguments with
  | .help => return .help
  | .version => return .version
  | .finished _ => none
  | .subcommand outer name rest =>
    if name = "help" then helpFor? rest
    else match ← scan false (OptionName.general ++ (← subcommandOptions? name)) {} rest with
    | .help => return .help
    | .finished inner =>
      return .run {
        config := inner.config <|> outer.config
        network := inner.network <|> outer.network
        json := inner.json || outer.json
        subcommand := ← subcommand? name inner }
    | _ => none

end BitcoinBlock.CommandLine
