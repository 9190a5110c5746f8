import SchemaDiff.CommandLine.Library
import SchemaDiff.Parser.Statement
import SchemaDiff.Statement.Json

namespace SchemaDiff.CommandLine

-- The files as the program finds them. Where something cannot be done, the cause is known.
structure Disk where
  read : String → Except String String
  refusesWrite : String → Option String

-- All that a run leaves behind.
structure Outcome where
  code : Nat
  stdout : String
  stderr : String
  written : Option (String × String)
deriving DecidableEq, Repr

-- The notices so far are kept when a run fails.
abbrev Run := EStateM Failure (List Notice)

namespace Run

def tell (n : Notice) : Run Unit :=
  modify (· ++ [n])

def readSchema (disk : Disk) (d : Dialect) (path : String) : Run Script := do
  match disk.read path with
  | .error cause => throw (.unreadable path cause)
  | .ok source =>
      match Script.parse d source with
      | .error e => throw (.unparsable path source e)
      | .ok script =>
          tell (.schemaParsed path script.length)
          return script

-- A dash stands for no schema at all.
def readOptional (disk : Disk) (d : Dialect) (path : String) : Run (Option Script) := do
  if path == "-" then return none
  return some (← readSchema disk d path)

def render (lib : Library) (format : OutputFormat) (s : Script) : Run String := do
  match format with
  | .sql => return s.sql
  | .json =>
      match lib.printJson s.toJson with
      | .error cause => throw (.unprintable cause)
      | .ok text => return text ++ "\n"

def compare (lib : Library) (disk : Disk) (d : Dialect) (a : Arguments) : Run String := do
  match a.before, a.after with
  | some before, some after =>
      let before ← readOptional disk d before
      let after ← readOptional disk d after
      (Migration.log d a.migrationOptions before after).forM (tell <| .migration ·)
      match Migration.diff d a.migrationOptions before after with
      | .ok migration =>
          tell (.migrationGenerated migration.length)
          render lib a.format migration
      | .error .noDifference =>
          tell .noDifference
          return ""
      | .error e => throw (.refused e)
  | _, _ => throw .schemasMissing

-- The text that the command line asks for.
def text (lib : Library) (disk : Disk) (a : Arguments) : Run String := do
  let some d := Dialect.ofName? a.dialect | throw (.unknownDialect a.dialect)
  tell (.dialectSelected d)
  match a.command with
  | some (.fmt file) => do render lib a.format (← readSchema disk d file)
  | none => compare lib disk d a

-- The result goes to a file or to the standard output, after all else has succeeded.
def output (lib : Library) (disk : Disk) (a : Arguments) :
    Run (String × Option (String × String)) := do
  let text ← text lib disk a
  match a.output with
  | none => return (text, none)
  | some path =>
      match disk.refusesWrite path with
      | some cause => throw (.unwritable path cause)
      | none => return ("", some (path, text))

end Run

-- Details are logged on demand.
def logLevel (verbose : Bool) : Level :=
  if verbose then .debug else .info

def Failure.text (lib : Library) (f : Failure) : String :=
  "Error: " ++ lib.describeError f.message f.cause? ++ "\n"

def run (lib : Library) (disk : Disk) (envDialect : Option String) (args : List String) :
    Outcome :=
  match lib.readArguments valueParsers envDialect args with
  | .error (.help text) | .error (.version text) => ⟨0, text, "", none⟩
  | .error (.usage text) => ⟨2, "", text, none⟩
  | .ok a =>
      let log (notices : List Notice) := lib.writeLog (logLevel a.verbose) (notices.map (·.entry))
      match Run.output lib disk a [] with
      | .ok (stdout, written) notices => ⟨0, stdout, log notices, written⟩
      | .error failure notices => ⟨1, "", log notices ++ failure.text lib, none⟩

end SchemaDiff.CommandLine
