import SchemaDiff.Migration
import SchemaDiff.Parser.Error

namespace SchemaDiff.CommandLine

open SchemaDiff.Migration (Event DiffError)

inductive Level
  | debug | info | warn
deriving DecidableEq, Repr

-- A value in a log. Some texts are marked as being one, others are shown as they are.
inductive LogValue
  | string (s : String)
  | plain (s : String)
  | count (n : Nat)
deriving DecidableEq, Repr

structure LogEntry where
  level : Level
  message : String
  fields : List (String × LogValue)
deriving DecidableEq, Repr

-- What the program tells about its work.
inductive Notice
  | dialectSelected (d : Dialect)
  | schemaParsed (path : String) (statements : Nat)
  | migration (event : Event)
  | migrationGenerated (statements : Nat)
  | noDifference
deriving DecidableEq, Repr

def eventEntry : Event → LogEntry
  | .droppingSchema statements =>
      ⟨.debug, "dropping whole schema", [("statements", .count statements)]⟩
  | .renamingTable rename =>
      ⟨.debug, "renaming table", [("from", .plain rename.old), ("to", .plain rename.new)]⟩
  | .comparingTable table => ⟨.debug, "diffing table", [("table", .plain table.sql)]⟩
  | .emitting (.alterTable table change) =>
      ⟨.debug, "emit", [("table", .plain table.sql), ("action", .plain change.sql)]⟩
  | .emitting statement => ⟨.debug, "emit", [("statement", .plain statement.describe)]⟩
  | .recreatingIndex index => ⟨.debug, "index changed, recreating", [("index", .plain index.sql)]⟩
  | .recreatingConstraint constraint =>
      ⟨.debug, "constraint changed, recreating", [("constraint", .plain constraint.raw)]⟩
  | .notRenaming d constraint target =>
      ⟨.warn, "constraint cannot be renamed, recreating",
        [("constraint", .plain constraint.raw), ("target", .plain target),
          ("dialect", .string d.name)]⟩
  | .complete d statements =>
      ⟨.debug, "diff complete", [("dialect", .string d.name), ("statements", .count statements)]⟩

def Notice.entry : Notice → LogEntry
  | dialectSelected d => ⟨.debug, "dialect selected", [("dialect", .string d.name)]⟩
  | schemaParsed path statements =>
      ⟨.debug, "schema parsed", [("path", .plain path), ("statements", .count statements)]⟩
  | migration event => eventEntry event
  | migrationGenerated statements =>
      ⟨.info, "migration generated", [("statements", .count statements)]⟩
  | noDifference => ⟨.info, DiffError.noDifference.message, []⟩

inductive Failure
  | unknownDialect (name : String)
  | schemasMissing
  | unreadable (path cause : String)
  | unparsable (path source : String) (error : ParseError)
  | refused (error : DiffError)
  | unprintable (cause : String)
  | unwritable (path cause : String)
deriving DecidableEq, Repr

namespace Failure

def message : Failure → String
  | unknownDialect name =>
      "unknown dialect \x60" ++ name ++ "\x60, expected postgres, mysql or cockroach"
  | schemasMissing => "both BEFORE and AFTER schemas are required (use \x60-\x60 for none)"
  | unreadable path _ => "failed to read " ++ path
  | unparsable path _ _ => "failed to parse " ++ path
  | refused _ => "failed to diff schemas"
  | unprintable cause => cause
  | unwritable path _ => "failed to write " ++ path

def cause? : Failure → Option String
  | unreadable _ cause | unwritable _ cause => some cause
  | unparsable _ source error => some (error.message source)
  | refused error => some error.message
  | _ => none

end Failure

end SchemaDiff.CommandLine
