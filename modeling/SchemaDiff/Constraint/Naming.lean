import SchemaDiff.Constraint

namespace SchemaDiff.Constraint.Naming

-- The names that constraints get when they are declared without one.

def joined (columns : List ColumnIdent) : String :=
  "_".intercalate (columns.map (·.ident.name))

def primaryKey (d : Dialect) (table : ObjectName) : Ident :=
  .derived d (table.identity ++ "_pkey")

def foreignKey (d : Dialect) (table : ObjectName) (columns : List ColumnIdent) : Ident :=
  .derived d (table.identity ++ "_" ++ joined columns ++ "_fkey")

def unique (d : Dialect) (table : ObjectName) (columns : List ColumnIdent) : Ident :=
  .derived d (table.identity ++ "_unique_" ++ joined columns)

def check (d : Dialect) (table : ObjectName) (column : Option String) : Ident :=
  .derived d (table.identity ++ column.elim "" ("_" ++ ·) ++ "_check")

def index (d : Dialect) (table : ObjectName) (columns : List ColumnIdent) : Ident :=
  .derived d (table.identity ++ "_" ++ joined columns ++ "_idx")

end SchemaDiff.Constraint.Naming
