import BitcoinBlock.CommandLine.Run

/-! The command at work: it reads the files that a run needs, prints what the run gives, and ends
with 0, with 1 after a failure, or with 2 when it is misused. -/
namespace BitcoinBlock.CommandLine

def fileFault : IO.Error → FileFault
  | .noFileOrDirectory .. => .missing
  | .inappropriateType .. => .directory
  | e => .other (toString e)

def contents (path : String) : IO (Except FileFault (List UInt8)) := do
  try
    return .ok (← IO.FS.readBinFile path).data.toList
  catch e =>
    return .error (fileFault e)

def paths (configFile : Option String) (arguments : List String) : List String :=
  match Request.ofArguments arguments with
  | some (.run invocation) =>
    (invocation.config <|> configFile).toList ++
      match invocation.subcommand with
      | .decode { source := .file path, .. } => [path]
      | _ => []
  | _ => []

/-- The files on disk and the environment, as far as the arguments call for them. -/
def surroundings (arguments : List String) : IO Surroundings := do
  let configFile ← IO.getEnv "BCL_CONFIG_FILE"
  let files ← (paths configFile arguments).mapM fun path => do return (path, ← contents path)
  return { configFile, file := fun path => (files.lookup path).getD (.error .missing) }

end BitcoinBlock.CommandLine

open BitcoinBlock.CommandLine in
def main (arguments : List String) : IO UInt32 := do
  match run (← surroundings arguments) arguments with
  | .printed text =>
    IO.println text
    return 0
  | .failed failure =>
    IO.eprintln failure.message
    return 1
  | .misused =>
    IO.eprintln "error: invalid arguments\n\nFor more information, try '--help'."
    return 2
