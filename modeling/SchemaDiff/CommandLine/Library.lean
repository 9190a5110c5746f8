import SchemaDiff.CommandLine.Args
import SchemaDiff.CommandLine.Report
import SchemaDiff.Json

namespace SchemaDiff.CommandLine

-- Why a command line is not carried out, and the text to show then.
inductive Stop
  | help (text : String)
  | version (text : String)
  | usage (text : String)
deriving DecidableEq, Repr

-- What the program leaves to the libraries that it is built on.
structure Library where
  -- Reads the command line. The dialect may come from the environment as well.
  readArguments : ValueParsers → Option String → List String → Except Stop Arguments
  printJson : Json → Except String String
  -- The lines for the entries that are of the given level or above it.
  writeLog : Level → List LogEntry → String
  -- An error together with what has caused it.
  describeError : String → Option String → String

end SchemaDiff.CommandLine
