import SchemaDiff.Dialect
import SchemaDiff.Text.Quoted

namespace SchemaDiff

-- `raw` is what gets printed. `name` is the name that the identifier stands for, without quotes,
-- and is all that comparisons and derived names look at.
structure Ident where
  name : String
  quote : Option Char
  raw : String
deriving DecidableEq, Repr

namespace Ident

def bare (name : String) : Ident :=
  ⟨name, none, name⟩

def quoted (q : Char) (name : String) : Ident :=
  ⟨name, some q, Text.quote q name⟩

-- The identifier of a quoted token.
def ofLiteral (q : Char) (literal : String) : Ident :=
  ⟨Text.unquote q literal, some q, literal⟩

def startsWord (c : Char) : Bool :=
  c.isAlpha || c == '_'

def continuesWord (c : Char) : Bool :=
  c.isAlphanum || c == '_'

-- A name that reads as one bare word which is no reserved keyword.
def isBareName (d : Dialect) (name : String) : Bool :=
  name.toList.head?.any startsWord && name.toList.all continuesWord &&
    !(d.keyword? name).any Keyword.isReserved

-- A generated name is quoted when it would not read as a bare word.
def derived (d : Dialect) (name : String) : Ident :=
  if isBareName d name then bare name else quoted d.identifierQuote name

end Ident

-- A name that may be qualified by the schema it belongs to.
structure ObjectName where
  schema : Option Ident
  name : Ident
deriving DecidableEq, Repr

namespace ObjectName

def ofIdent (name : Ident) : ObjectName :=
  ⟨none, name⟩

def sql (n : ObjectName) : String :=
  match n.schema with
  | some schema => schema.raw ++ "." ++ n.name.raw
  | none => n.name.raw

-- Comparisons see neither the schema nor the quotes.
def identity (n : ObjectName) : String :=
  n.name.name

end ObjectName

inductive SortOrder
  | ascending | descending
deriving DecidableEq, Repr

-- A column in a key, an index or the target of a foreign key.
structure ColumnIdent where
  ident : Ident
  order : SortOrder
deriving DecidableEq, Repr

namespace ColumnIdent

def ascending (ident : Ident) : ColumnIdent :=
  ⟨ident, .ascending⟩

-- `spell` is `Ident.raw` for the text of the column and `Ident.name` for its identity.
def spelled (spell : Ident → String) (c : ColumnIdent) : String :=
  match c.order with
  | .ascending => spell c.ident
  | .descending => spell c.ident ++ " DESC"

def sql : ColumnIdent → String := spelled Ident.raw

def identity : ColumnIdent → String := spelled Ident.name

def listSpelled (spell : Ident → String) (columns : List ColumnIdent) : String :=
  "(" ++ ", ".intercalate (columns.map (spelled spell)) ++ ")"

end ColumnIdent

end SchemaDiff
