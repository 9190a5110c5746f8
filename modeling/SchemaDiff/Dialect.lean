import SchemaDiff.Keyword

namespace SchemaDiff

-- Reading, printing and comparing are written once. Whatever differs between the families of
-- databases is one of the functions below.
inductive Dialect
  | postgres | mysql | cockroach
deriving DecidableEq, Repr

-- A unique constraint is an entry of the table, or an index of its own.
inductive UniqueStyle
  | constraint | index
deriving DecidableEq, Repr

-- The type of a column is changed by an action of its own, or by writing the whole column anew.
inductive AlterColumnStyle
  | standard | modify
deriving DecidableEq, Repr

namespace Dialect

def name : Dialect → String
  | postgres => "postgres"
  | mysql => "mysql"
  | cockroach => "cockroach"

def ofName? (name : String) : Option Dialect :=
  let name := Text.lower name
  if ["postgres", "postgresql", "pg"].contains name then some postgres
  else if name == "mysql" then some mysql
  else if ["cockroach", "cockroachdb", "crdb"].contains name then some cockroach
  else none

def identifierQuote : Dialect → Char
  | mysql => '\x60'
  | _ => '"'

def extraKeywords : Dialect → List Keyword
  | mysql => [.modify, .autoIncrement]
  | _ => [.valid]

def keyword? (d : Dialect) (word : String) : Option Keyword :=
  (Keyword.ofWord? word).filter fun k => !k.isDialectSpecific || d.extraKeywords.contains k

def castOperators : Dialect → List String
  | postgres => ["::"]
  | mysql => []
  | cockroach => ["::", ":::"]

def uniqueStyle : Dialect → UniqueStyle
  | postgres => .constraint
  | _ => .index

-- Whether a table may hold `INDEX name (columns)`.
def hasInlineIndex : Dialect → Bool
  | postgres => false
  | _ => true

-- The names of table options, each a list of words.
def tableOptions : Dialect → List (List String)
  | postgres => [["TABLESPACE"]]
  | mysql =>
      [["ENGINE"], ["AUTO_INCREMENT"], ["DEFAULT", "CHARSET"], ["CHARSET"],
        ["DEFAULT", "CHARACTER", "SET"], ["CHARACTER", "SET"], ["DEFAULT", "COLLATE"],
        ["COLLATE"], ["COMMENT"], ["ROW_FORMAT"]]
  | cockroach => []

def hasNotValid : Dialect → Bool
  | mysql => false
  | _ => true

def hasRenameConstraint : Dialect → Bool
  | mysql => false
  | _ => true

def alterColumnStyle : Dialect → AlterColumnStyle
  | mysql => .modify
  | _ => .standard

-- Whether an index is dropped from its table: `DROP INDEX name ON table`.
def dropsIndexOnTable : Dialect → Bool
  | mysql => true
  | _ => false

-- Words that may follow a data type.
def typeSuffixes : Dialect → List String
  | mysql => ["UNSIGNED", "ZEROFILL"]
  | _ => []

-- Whether a backslash in a string literal protects the next character.
def hasBackslashEscapes : Dialect → Bool
  | mysql => true
  | _ => false

def hasArrayTypes : Dialect → Bool
  | mysql => false
  | _ => true

end Dialect

end SchemaDiff
