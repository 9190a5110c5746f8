import SchemaDiff.Statement

namespace SchemaDiff.Migration

-- Renames are never guessed. A hint tells that a table of the old schema and a table of the new
-- schema are one.
structure TableRename where
  old : String
  new : String
deriving DecidableEq, Repr

-- The table is the one of the new schema.
structure ColumnRename where
  table : String
  old : String
  new : String
deriving DecidableEq, Repr

structure Options where
  -- New foreign keys and checks are not applied to the rows that exist.
  notValid : Bool
  tableRenames : List TableRename
  columnRenames : List ColumnRename
deriving DecidableEq, Repr

namespace Options

def default : Options :=
  ⟨false, [], []⟩

def withNotValid (o : Options) (enabled : Bool) : Options :=
  { o with notValid := enabled }

-- Hints are kept in the order in which they are given.
def withTableRename (o : Options) (rename : TableRename) : Options :=
  { o with tableRenames := o.tableRenames ++ [rename] }

def withColumnRename (o : Options) (rename : ColumnRename) : Options :=
  { o with columnRenames := o.columnRenames ++ [rename] }

end Options

-- The first hint for a table counts.
def newTableName? (renames : List TableRename) (table : String) : Option String :=
  (renames.find? (·.old == table)).map (·.new)

def renameTable (d : Dialect) (renames : List TableRename) (table : ObjectName) : ObjectName :=
  match newTableName? renames table.identity with
  | some new => { table with name := .derived d new }
  | none => table

-- In the following functions the hints are those for the table that the columns belong to.
def renameColumn (d : Dialect) (renames : List ColumnRename) (column : Ident) : Ident :=
  match renames.find? (·.old == column.name) with
  | some rename => .derived d rename.new
  | none => column

def renameColumns (d : Dialect) (renames : List ColumnRename) (columns : List ColumnIdent) :
    List ColumnIdent :=
  columns.map fun c => { c with ident := renameColumn d renames c.ident }

def Options.columnRenamesOf (o : Options) (table : String) : List ColumnRename :=
  o.columnRenames.filter (·.table == table)

end SchemaDiff.Migration
