import SchemaDiff.Column
import SchemaDiff.Constraint

namespace SchemaDiff

-- A setting behind the body of a table, such as `ENGINE=InnoDB`.
structure TableOption where
  name : String
  value : Ident
  equals : Bool
deriving DecidableEq, Repr

namespace TableOption

def sql (o : TableOption) : String :=
  o.name ++ (if o.equals then "=" else " ") ++ o.value.raw

-- It makes no difference whether the value is attached with an equals sign.
def identity (o : TableOption) : String :=
  o.name ++ "=" ++ o.value.name

end TableOption

structure CreateTable where
  ifNotExists : Bool
  name : ObjectName
  columns : List Column
  constraints : List Constraint
  options : List TableOption
deriving DecidableEq, Repr

namespace CreateTable

def column? (t : CreateTable) (name : String) : Option Column :=
  t.columns.find? (·.name.name == name)

def constraint? (t : CreateTable) (name : String) : Option Constraint :=
  t.constraints.find? (·.name.name == name)

def sql (t : CreateTable) : String :=
  let elements := t.columns.map Column.sql ++ t.constraints.map Constraint.sql
  let body := if elements.isEmpty then "" else "\n    " ++ ",\n    ".intercalate elements ++ "\n"
  "CREATE TABLE " ++ (if t.ifNotExists then "IF NOT EXISTS " else "") ++ t.name.sql ++
    " (" ++ body ++ ")" ++ String.join (t.options.map (" " ++ ·.sql))

def identity (t : CreateTable) : String :=
  let elements := t.columns.map Column.identity ++ t.constraints.map Constraint.identity
  "CREATE TABLE " ++ t.name.identity ++ " (" ++ ", ".intercalate elements ++ ") " ++
    " ".intercalate (t.options.map TableOption.identity)

end CreateTable

structure CreateIndex where
  unique : Bool
  ifNotExists : Bool
  name : ObjectName
  table : ObjectName
  method : Option Ident
  columns : List ColumnIdent
  predicate : Option Expr
deriving DecidableEq, Repr

namespace CreateIndex

def kind (i : CreateIndex) : String :=
  "CREATE " ++ Rule.indexKind i.unique

def sql (i : CreateIndex) : String :=
  i.kind ++ " " ++ (if i.ifNotExists then "IF NOT EXISTS " else "") ++ i.name.sql ++
    " ON " ++ i.table.sql ++ i.method.elim "" (" USING " ++ ·.raw) ++ " " ++
    ColumnIdent.listSpelled Ident.raw i.columns ++ i.predicate.elim "" (" WHERE " ++ ·.sql)

-- Methods are compared without regard to case.
def identity (i : CreateIndex) : String :=
  i.kind ++ " " ++ i.name.identity ++ " ON " ++ i.table.identity ++
    i.method.elim "" (fun m => " USING " ++ Text.upper m.name) ++ " " ++
    ColumnIdent.listSpelled Ident.name i.columns ++
    i.predicate.elim "" (" WHERE " ++ ·.identity)

end CreateIndex

-- A change of one column of a table.
inductive ColumnChange
  | setDataType (dataType : DataType)
  | setDefault (value : Expr)
  | dropDefault
  | setNotNull
  | dropNotNull
deriving DecidableEq, Repr

namespace ColumnChange

def spelled (spell : Ident → String) : ColumnChange → String
  | setDataType dataType => "SET DATA TYPE " ++ dataType.sql
  | setDefault value => "SET DEFAULT " ++ value.spelled spell
  | dropDefault => "DROP DEFAULT"
  | setNotNull => "SET NOT NULL"
  | dropNotNull => "DROP NOT NULL"

end ColumnChange

-- A change of a table.
inductive TableChange
  | renameTable (new : Ident)
  | renameColumn (old new : Ident)
  | renameConstraint (old new : Ident)
  | addColumn (column : Column)
  | dropColumn (name : Ident)
  | alterColumn (name : Ident) (change : ColumnChange)
  | modifyColumn (column : Column)
  | addConstraint (constraint : Constraint) (notValid : Bool)
  | dropConstraint (name : Ident)
deriving DecidableEq, Repr

namespace TableChange

-- Only the addition of a constraint is more than a matter of spelling.
def spelled (spell : Ident → String) (added : Constraint → Bool → String) : TableChange → String
  | renameTable new => "RENAME TO " ++ spell new
  | renameColumn old new => "RENAME COLUMN " ++ spell old ++ " TO " ++ spell new
  | renameConstraint old new => "RENAME CONSTRAINT " ++ spell old ++ " TO " ++ spell new
  | addColumn column => "ADD COLUMN " ++ column.spelled spell
  | dropColumn name => "DROP COLUMN " ++ spell name
  | alterColumn name change => "ALTER COLUMN " ++ spell name ++ " " ++ change.spelled spell
  | modifyColumn column => "MODIFY COLUMN " ++ column.spelled spell
  | addConstraint constraint notValid => "ADD " ++ added constraint notValid
  | dropConstraint name => "DROP CONSTRAINT " ++ spell name

def sql : TableChange → String :=
  spelled Ident.raw fun c notValid => c.sql ++ if notValid then " NOT VALID" else ""

def identity : TableChange → String :=
  spelled Ident.name fun c notValid =>
    c.identity ++ " NOT VALID=" ++ if notValid then "true" else "false"

end TableChange

inductive Statement
  | createTable (table : CreateTable)
  | dropTable (ifExists : Bool) (name : ObjectName)
  | alterTable (name : ObjectName) (change : TableChange)
  | createIndex (index : CreateIndex)
  | dropIndex (ifExists : Bool) (name : ObjectName) (table : Option ObjectName)
deriving DecidableEq, Repr

namespace Statement

-- A short form for messages.
def describe : Statement → String
  | createTable table => "CREATE TABLE " ++ table.name.sql
  | dropTable _ name => "DROP TABLE " ++ name.sql
  | alterTable name _ => "ALTER TABLE " ++ name.sql
  | createIndex index => "CREATE INDEX " ++ index.name.sql
  | dropIndex _ name _ => "DROP INDEX " ++ name.sql

def ifExistsSql (ifExists : Bool) : String :=
  if ifExists then "IF EXISTS " else ""

-- The statement without the semicolon.
def text : Statement → String
  | createTable table => table.sql
  | dropTable ifExists name => "DROP TABLE " ++ ifExistsSql ifExists ++ name.sql
  | alterTable name change => "ALTER TABLE " ++ name.sql ++ " " ++ change.sql
  | createIndex index => index.sql
  | dropIndex ifExists name table =>
      "DROP INDEX " ++ ifExistsSql ifExists ++ name.sql ++ table.elim "" (" ON " ++ ·.sql)

def sql (s : Statement) : String :=
  s.text ++ ";\n"

def identity : Statement → String
  | createTable table => table.identity
  | dropTable _ name => "DROP TABLE " ++ name.identity
  | alterTable name change => "ALTER TABLE " ++ name.identity ++ " " ++ change.identity
  | createIndex index => index.identity
  | dropIndex _ name _ => "DROP INDEX " ++ name.identity

end Statement

-- Statements in the order of the source. A schema and a migration are scripts.
abbrev Script := List Statement

namespace Script

def sql (s : Script) : String :=
  String.join (s.map Statement.sql)

-- Two scripts of equal identity describe the same objects in the same order.
def identity (s : Script) : String :=
  ";\n".intercalate (s.map Statement.identity)

end Script

end SchemaDiff
