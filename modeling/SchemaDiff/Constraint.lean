import SchemaDiff.Expr

namespace SchemaDiff

-- What happens to a referencing row when the row it refers to changes.
inductive ReferentialAction
  | noAction | restrict | cascade | setNull | setDefault
deriving DecidableEq, Repr

namespace ReferentialAction

def sql : ReferentialAction → String
  | noAction => "NO ACTION"
  | restrict => "RESTRICT"
  | cascade => "CASCADE"
  | setNull => "SET NULL"
  | setDefault => "SET DEFAULT"

end ReferentialAction

-- What a foreign key refers to. Without columns it is the primary key of the table.
structure Reference where
  table : ObjectName
  columns : List ColumnIdent
  onDelete : Option ReferentialAction
  onUpdate : Option ReferentialAction
deriving DecidableEq, Repr

namespace Reference

def actions (r : Reference) : String :=
  r.onDelete.elim "" (" ON DELETE " ++ ·.sql) ++ r.onUpdate.elim "" (" ON UPDATE " ++ ·.sql)

def sql (r : Reference) : String :=
  let columns :=
    if r.columns.isEmpty then "" else " " ++ ColumnIdent.listSpelled Ident.raw r.columns
  r.table.sql ++ columns ++ r.actions

-- Missing columns count as an empty list.
def identity (r : Reference) : String :=
  r.table.identity ++ " " ++ ColumnIdent.listSpelled Ident.name r.columns ++ r.actions

end Reference

-- What a constraint demands. Indexes declared inside a table are constraints too, and in some
-- dialects unique constraints are such indexes.
inductive Rule
  | primaryKey (columns : List ColumnIdent)
  | foreignKey (columns : List ColumnIdent) (target : Reference)
  | unique (columns : List ColumnIdent)
  | check (body : Expr)
  | index (isUnique : Bool) (columns : List ColumnIdent)
deriving DecidableEq, Repr

namespace Rule

-- Rules that exist as indexes are created and dropped by statements about indexes.
def isIndex : Rule → Bool
  | index _ _ => true
  | _ => false

-- The columns of a primary key.
def primaryColumns : Rule → List ColumnIdent
  | primaryKey columns => columns
  | _ => []

def indexKind (isUnique : Bool) : String :=
  if isUnique then "UNIQUE INDEX" else "INDEX"

def sql : Rule → String
  | primaryKey columns => "PRIMARY KEY " ++ ColumnIdent.listSpelled Ident.raw columns
  | foreignKey columns target =>
      "FOREIGN KEY " ++ ColumnIdent.listSpelled Ident.raw columns ++ " REFERENCES " ++ target.sql
  | unique columns => "UNIQUE " ++ ColumnIdent.listSpelled Ident.raw columns
  | check body => "CHECK (" ++ body.sql ++ ")"
  | index isUnique columns =>
      indexKind isUnique ++ " " ++ ColumnIdent.listSpelled Ident.raw columns

def identity : Rule → String
  | primaryKey columns => "PRIMARY KEY " ++ ColumnIdent.listSpelled Ident.name columns
  | foreignKey columns target =>
      "FOREIGN KEY " ++ ColumnIdent.listSpelled Ident.name columns ++ " REFERENCES " ++
        target.identity
  | unique columns => "UNIQUE " ++ ColumnIdent.listSpelled Ident.name columns
  | check body => "CHECK (" ++ body.identity ++ ")"
  | index isUnique columns =>
      indexKind isUnique ++ " " ++ ColumnIdent.listSpelled Ident.name columns

end Rule

-- Every constraint has a name, written in the source or derived from its table and columns.
structure Constraint where
  name : Ident
  rule : Rule
deriving DecidableEq, Repr

namespace Constraint

def isIndex (c : Constraint) : Bool :=
  c.rule.isIndex

def sql (c : Constraint) : String :=
  match c.rule with
  | .index isUnique columns =>
      Rule.indexKind isUnique ++ " " ++ c.name.raw ++ " " ++
        ColumnIdent.listSpelled Ident.raw columns
  | rule => "CONSTRAINT " ++ c.name.raw ++ " " ++ rule.sql

-- What the constraint demands, whatever its name is.
def definition (c : Constraint) : String :=
  c.rule.identity

def identity (c : Constraint) : String :=
  c.name.name ++ " " ++ c.definition

end Constraint

end SchemaDiff
