import SchemaDiff.Text.Chars

namespace SchemaDiff

-- The words that the grammar of schema definitions is made of. Names of data types are not among
-- them: they are read as identifiers, so that user-defined types need no entry here.
inductive Keyword
  | create | alter | drop | add | rename | modify
  | table | index | column | constraint
  | primary | foreign | key | references | unique | check | default | not | null | valid
  | autoIncrement
  | onWord | delete | update | cascade | restrict | no | action | set
  | ifWord | existsWord | asc | desc | usingWord | whereWord | toWord | data | type
deriving DecidableEq, Repr

namespace Keyword

def text : Keyword → String
  | create => "CREATE"
  | alter => "ALTER"
  | drop => "DROP"
  | add => "ADD"
  | rename => "RENAME"
  | modify => "MODIFY"
  | table => "TABLE"
  | index => "INDEX"
  | column => "COLUMN"
  | constraint => "CONSTRAINT"
  | primary => "PRIMARY"
  | foreign => "FOREIGN"
  | key => "KEY"
  | references => "REFERENCES"
  | unique => "UNIQUE"
  | check => "CHECK"
  | default => "DEFAULT"
  | not => "NOT"
  | null => "NULL"
  | valid => "VALID"
  | autoIncrement => "AUTO_INCREMENT"
  | onWord => "ON"
  | delete => "DELETE"
  | update => "UPDATE"
  | cascade => "CASCADE"
  | restrict => "RESTRICT"
  | no => "NO"
  | action => "ACTION"
  | set => "SET"
  | ifWord => "IF"
  | existsWord => "EXISTS"
  | asc => "ASC"
  | desc => "DESC"
  | usingWord => "USING"
  | whereWord => "WHERE"
  | toWord => "TO"
  | data => "DATA"
  | type => "TYPE"

def all : List Keyword :=
  [create, alter, drop, add, rename, modify, table, index, column, constraint, primary, foreign,
    key, references, unique, check, default, not, null, valid, autoIncrement, onWord, delete,
    update, cascade, restrict, no, action, set, ifWord, existsWord, asc, desc, usingWord, whereWord,
    toWord, data, type]

def ofWord? (word : String) : Option Keyword :=
  let word := Text.upper word
  all.find? (·.text == word)

-- A reserved keyword is never a name. Every other keyword is one wherever a name is expected.
def isReserved : Keyword → Bool
  | create | alter | drop | table | constraint | primary | foreign | references | unique | check
  | default | not | null | onWord | usingWord | whereWord => true
  | _ => false

-- Only some dialects know these words as keywords.
def isDialectSpecific : Keyword → Bool
  | modify | autoIncrement | valid => true
  | _ => false

end Keyword

end SchemaDiff
