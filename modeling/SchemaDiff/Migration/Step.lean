import SchemaDiff.Migration.Hint

namespace SchemaDiff.Migration

-- Why there is no migration between two schemas.
inductive Refusal
  | notAnObject (statement : Statement)
  | oldTableMissing (rename : TableRename)
  | newTableMissing (rename : TableRename)
  | newTableTaken (rename : TableRename)
  | tableNotShared (rename : ColumnRename)
  | columnMissing (table : ObjectName) (rename : ColumnRename)
  | columnKept (table : ObjectName) (rename : ColumnRename)
  | optionsChanged (table : ObjectName) (old new : List String)
  | autoIncrementChanged (table : ObjectName) (column : Ident)
deriving DecidableEq, Repr

namespace Refusal

def inTicks (s : String) : String :=
  "\x60" ++ s ++ "\x60"

def tableRename (rename : TableRename) : String :=
  "ALTER TABLE " ++ rename.old ++ " RENAME TO " ++ rename.new

def columnRename (table : String) (rename : ColumnRename) : String :=
  "ALTER TABLE " ++ table ++ " RENAME COLUMN " ++ rename.old ++ " TO " ++ rename.new

-- The statement that cannot be part of a migration.
def statement : Refusal → String
  | notAnObject statement => statement.describe
  | oldTableMissing rename | newTableMissing rename | newTableTaken rename => tableRename rename
  | tableNotShared rename => columnRename rename.table rename
  | columnMissing table rename | columnKept table rename => columnRename table.sql rename
  | optionsChanged table _ _ => "CREATE TABLE " ++ table.sql
  | autoIncrementChanged table column =>
      "ALTER TABLE " ++ table.sql ++ " ALTER COLUMN " ++ column.raw

def reason : Refusal → String
  | notAnObject _ => "only CREATE TABLE and CREATE INDEX statements can be compared"
  | oldTableMissing rename => "table " ++ inTicks rename.old ++ " does not exist in the old schema"
  | newTableMissing rename => "table " ++ inTicks rename.new ++ " does not exist in the new schema"
  | newTableTaken rename => "table " ++ inTicks rename.new ++ " already exists in the old schema"
  | tableNotShared rename => "table " ++ inTicks rename.table ++ " does not exist in both schemas"
  | columnMissing _ rename =>
      "column " ++ inTicks rename.old ++ " must exist in the old table and " ++
        inTicks rename.new ++ " in the new one"
  | columnKept _ rename => "column " ++ inTicks rename.old ++ " still exists in the new table"
  | optionsChanged _ old new =>
      "table options changed from " ++ inTicks (" ".intercalate old) ++ " to " ++
        inTicks (" ".intercalate new)
  | autoIncrementChanged _ _ => "AUTO_INCREMENT cannot be changed in this dialect"

def message (r : Refusal) : String :=
  "cannot diff " ++ inTicks r.statement ++ ": " ++ r.reason

end Refusal

-- What a run reports on its way.
inductive Event
  | droppingSchema (statements : Nat)
  | renamingTable (rename : TableRename)
  | comparingTable (table : ObjectName)
  | emitting (statement : Statement)
  | recreatingIndex (index : ObjectName)
  | recreatingConstraint (constraint : Ident)
  | notRenaming (d : Dialect) (constraint : Ident) (target : String)
  | complete (d : Dialect) (statements : Nat)
deriving DecidableEq, Repr

-- A migration is planned as a list of steps. The first refusal ends it.
inductive Step
  | note (event : Event)
  | emit (statement : Statement)
  | refuse (refusal : Refusal)
deriving DecidableEq, Repr

namespace Step

def announce (s : Statement) : List Step :=
  [note (.emitting s), emit s]

def alter (table : ObjectName) (change : TableChange) : List Step :=
  announce (.alterTable table change)

-- The statements that are planned, whether or not a refusal stands among them.
def statements (steps : List Step) : Script :=
  steps.filterMap fun
    | emit s => some s
    | _ => none

-- What is reported up to the first refusal.
def events : List Step → List Event
  | [] => []
  | note event :: rest => event :: events rest
  | emit _ :: rest => events rest
  | refuse _ :: _ => []

def refusal? (steps : List Step) : Option Refusal :=
  steps.findSome? fun
    | refuse r => some r
    | _ => none

def result (steps : List Step) : Except Refusal Script :=
  match refusal? steps with
  | some r => .error r
  | none => .ok (statements steps)

theorem statements_append (first second : List Step) :
    statements (first ++ second) = statements first ++ statements second :=
  List.filterMap_append

-- The first refusal counts.
theorem refusal?_append (first second : List Step) :
    refusal? (first ++ second) = (refusal? first).or (refusal? second) :=
  List.findSome?_append

end Step

end SchemaDiff.Migration
