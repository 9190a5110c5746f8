import SchemaDiff.CommandLine.Library

namespace SchemaDiff.CommandLine

-- The arguments among which there are flags. Behind two dashes there are none.
def flagsOf (args : List String) : List String :=
  args.takeWhile (· != "--")

-- The value behind a flag and an equals sign.
def attached? (flag arg : String) : Option String :=
  ((flag ++ "=").toList.isPrefixOf? arg.toList).map String.ofList

-- The values that are given to a flag, from left to right. A value is attached to the flag, or it
-- is the next argument.
def valuesOf (flag : String) : List String → List String
  | [] => []
  | [arg] => (attached? flag arg).toList
  | arg :: next :: rest =>
      if arg = flag then next :: valuesOf flag rest
      else (attached? flag arg).toList ++ valuesOf flag (next :: rest)

-- What the library documents about flags with a long name only. A switch is on if it is given. A
-- flag that can be given more than once keeps all its values, each of them read by the parser of
-- the flag, in the order of the command line.
structure Library.Lawful (lib : Library) : Prop where
  notValid : ∀ {parsers envDialect args a},
    lib.readArguments parsers envDialect args = .ok a → a.command = none →
      (a.notValid = true ↔ "--not-valid" ∈ flagsOf args)
  tableRenames : ∀ {parsers envDialect args a},
    lib.readArguments parsers envDialect args = .ok a → a.command = none →
      a.tableRenames.map .ok =
        (valuesOf "--rename-table" (flagsOf args)).map parsers.tableRename
  columnRenames : ∀ {parsers envDialect args a},
    lib.readArguments parsers envDialect args = .ok a → a.command = none →
      a.columnRenames.map .ok =
        (valuesOf "--rename-column" (flagsOf args)).map parsers.columnRename

-- The options are those that a command line asks for, with the hints in its order.
structure Requested (args : List String) (o : Migration.Options) : Prop where
  notValid : o.notValid = true ↔ "--not-valid" ∈ flagsOf args
  tableRenames :
    o.tableRenames.map .ok = (valuesOf "--rename-table" (flagsOf args)).map parseTableRename
  columnRenames :
    o.columnRenames.map .ok = (valuesOf "--rename-column" (flagsOf args)).map parseColumnRename

section Options

variable {o : Migration.Options}

theorem foldl_withTableRename (renames : List Migration.TableRename) :
    renames.foldl .withTableRename o = { o with tableRenames := o.tableRenames ++ renames } := by
  induction renames generalizing o with
  | nil => simp
  | cons r renames ih => simp [ih, Migration.Options.withTableRename]

theorem foldl_withColumnRename (renames : List Migration.ColumnRename) :
    renames.foldl .withColumnRename o = { o with columnRenames := o.columnRenames ++ renames } := by
  induction renames generalizing o with
  | nil => simp
  | cons r renames ih => simp [ih, Migration.Options.withColumnRename]

end Options

-- No hint is lost or moved on the way to the migration.
theorem Arguments.migrationOptions_eq (a : Arguments) :
    a.migrationOptions = ⟨a.notValid, a.tableRenames, a.columnRenames⟩ := by
  rw [migrationOptions, foldl_withTableRename, foldl_withColumnRename]
  rfl

theorem Library.Lawful.requested {lib : Library} (h : lib.Lawful) {envDialect : Option String}
    {args : List String} {a : Arguments}
    (ha : lib.readArguments valueParsers envDialect args = .ok a) (hcommand : a.command = none) :
    Requested args a.migrationOptions := by
  rw [a.migrationOptions_eq]
  exact ⟨h.notValid ha hcommand, h.tableRenames ha hcommand, h.columnRenames ha hcommand⟩

end SchemaDiff.CommandLine
