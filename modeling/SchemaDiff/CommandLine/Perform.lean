import SchemaDiff.CommandLine

namespace SchemaDiff.CommandLine

-- The wording of the operating system.
def describeFailure (e : IO.Error) : String :=
  match e with
  | .noFileOrDirectory _ code details | .permissionDenied _ code details
  | .resourceExhausted _ code details | .inappropriateType _ code details
  | .alreadyExists _ code details | .invalidArgument _ code details =>
      details ++ " (os error " ++ toString code ++ ")"
  | _ => toString e

def readSource (path : String) : IO (Except String String) := do
  try
    match String.fromUTF8? (← IO.FS.readBinFile path) with
    | some text => return .ok text
    | none => return .error "stream did not contain valid UTF-8"
  catch e => return .error (describeFailure e)

def diskOf (sources : List (String × Except String String)) (writeFailure : Option String) :
    Disk where
  read path := (sources.lookup path).getD (.error "No such file or directory (os error 2)")
  refusesWrite _ := writeFailure

-- The files that a run may read.
def inputs (lib : Library) (envDialect : Option String) (args : List String) : List String :=
  match lib.readArguments valueParsers envDialect args with
  | .ok a => a.paths
  | .error _ => []

-- Carries a run out. The files are read ahead, and one is written at the end at most.
def perform (lib : Library) (args : List String) : IO UInt32 := do
  let envDialect ← IO.getEnv "OXIDE_DDL_DIALECT"
  let sources ← (inputs lib envDialect args).mapM fun path => return (path, ← readSource path)
  let planned := run lib (diskOf sources none) envDialect args
  let outcome ← match planned.written with
    | none => pure planned
    | some (path, text) =>
        try
          IO.FS.writeFile path text
          pure planned
        catch e =>
          pure (run lib (diskOf sources (some (describeFailure e))) envDialect args)
  (← IO.getStderr).putStr outcome.stderr
  (← IO.getStdout).putStr outcome.stdout
  return outcome.code.toUInt32

end SchemaDiff.CommandLine
