import SchemaDiff.Migration

namespace SchemaDiff.CommandLine

open SchemaDiff.Migration (TableRename ColumnRename)

inductive OutputFormat
  | sql | json
deriving DecidableEq, Repr

-- What can be asked for instead of a comparison.
inductive Command
  | fmt (file : String)
deriving DecidableEq, Repr

-- What a command line says.
structure Arguments where
  dialect : String
  notValid : Bool
  tableRenames : List TableRename
  columnRenames : List ColumnRename
  format : OutputFormat
  output : Option String
  verbose : Bool
  before : Option String
  after : Option String
  command : Option Command
deriving DecidableEq, Repr

namespace Arguments

-- The hints are handed over one after the other.
def migrationOptions (a : Arguments) : Migration.Options :=
  let options := Migration.Options.default.withNotValid a.notValid
  a.columnRenames.foldl .withColumnRename (a.tableRenames.foldl .withTableRename options)

-- The paths that the command line names.
def paths (a : Arguments) : List String :=
  match a.command with
  | some (.fmt file) => [file]
  | none => a.before.toList ++ a.after.toList

end Arguments

def splitAtFirst (c : Char) : List Char → Option (List Char × List Char)
  | [] => none
  | d :: rest =>
      if d = c then some ([], rest)
      else (splitAtFirst c rest).map fun (front, back) => (d :: front, back)

-- A value that is not of the form is refused in words.
def inForm {α : Type} (form value : String) : Option α → Except String α
  | some a => .ok a
  | none => .error ("expected " ++ form ++ ", got \x60" ++ value ++ "\x60")

-- Neither of the names is empty.
def parseTableRename (value : String) : Except String TableRename :=
  inForm "OLD=NEW" value do
    let (old, new) ← splitAtFirst '=' value.toList
    if old.isEmpty || new.isEmpty then none
    else some ⟨String.ofList old, String.ofList new⟩

-- None of the names is empty.
def parseColumnRename (value : String) : Except String ColumnRename :=
  inForm "TABLE.OLD=NEW" value do
    let (column, new) ← splitAtFirst '=' value.toList
    let (table, old) ← splitAtFirst '.' column
    if table.isEmpty || old.isEmpty || new.isEmpty then none
    else some ⟨String.ofList table, String.ofList old, String.ofList new⟩

-- How the values of flags are read.
structure ValueParsers where
  tableRename : String → Except String TableRename
  columnRename : String → Except String ColumnRename

def valueParsers : ValueParsers :=
  ⟨parseTableRename, parseColumnRename⟩

end SchemaDiff.CommandLine
