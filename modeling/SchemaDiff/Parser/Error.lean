import SchemaDiff.Token

namespace SchemaDiff

-- What was being read.
inductive Context
  | statement | createStatement | dropStatement
  | createTable | createIndex | dropTable | dropIndex
  | alterTable | alterTableAction | alterColumn | setDefault
  | tableName | indexName | columnName | constraintName
  | indexMethod | indexColumns | indexPredicate
  | columnDefinition | columnConstraint | defaultExpression
  | dataType | typeParameters
  | tableConstraint | primaryKey | foreignKey | unique | inlineIndex | checkConstraint
  | references | referencedTable | referencedColumns | referentialAction
  | tableOptions
deriving DecidableEq, Repr

namespace Context

def text : Context → String
  | statement => "statement"
  | createStatement => "CREATE statement"
  | dropStatement => "DROP statement"
  | createTable => "CREATE TABLE"
  | createIndex => "CREATE INDEX"
  | dropTable => "DROP TABLE"
  | dropIndex => "DROP INDEX"
  | alterTable => "ALTER TABLE"
  | alterTableAction => "ALTER TABLE action"
  | alterColumn => "ALTER COLUMN"
  | setDefault => "SET DEFAULT"
  | tableName => "table name"
  | indexName => "index name"
  | columnName => "column name"
  | constraintName => "constraint name"
  | indexMethod => "index method"
  | indexColumns => "index columns"
  | indexPredicate => "index predicate"
  | columnDefinition => "column definition"
  | columnConstraint => "column constraint"
  | defaultExpression => "DEFAULT expression"
  | dataType => "data type"
  | typeParameters => "type parameters"
  | tableConstraint => "table constraint"
  | primaryKey => "PRIMARY KEY"
  | foreignKey => "FOREIGN KEY"
  | unique => "UNIQUE"
  | inlineIndex => "INDEX"
  | checkConstraint => "CHECK constraint"
  | references => "REFERENCES clause"
  | referencedTable => "referenced table"
  | referencedColumns => "referenced columns"
  | referentialAction => "referential action"
  | tableOptions => "table options"

end Context

-- What could have stood in the place of the token that was found.
inductive Expected
  | keyword (keyword : Keyword)
  | word (word : String)
  | openParen | closeParen | commaOrCloseParen | closeBracket | semicolon
  | identifier | dataType | typeParameter | expression | tableOption | optionValue
  | statement | tableOrIndex
  | columnConstraint | tableConstraint | deleteOrUpdate | referentialAction | nullOrDefault
  | tableChange | columnOrConstraint | renamedObject
  | columnChange | columnSetting | columnRemoval
deriving DecidableEq, Repr

namespace Expected

def text : Expected → String
  | keyword k => k.text
  | word w => w
  | openParen => "\x60(\x60"
  | closeParen => "\x60)\x60"
  | commaOrCloseParen => "\x60,\x60 or \x60)\x60"
  | closeBracket => "\x60]\x60"
  | semicolon => "\x60;\x60"
  | identifier => "identifier"
  | dataType => "data type"
  | typeParameter => "type parameter"
  | expression => "expression"
  | tableOption => "table option"
  | optionValue => "option value"
  | statement => "CREATE, ALTER or DROP"
  | tableOrIndex => "TABLE or INDEX"
  | columnConstraint => "PRIMARY KEY, UNIQUE, REFERENCES or CHECK"
  | tableConstraint => "PRIMARY KEY, FOREIGN KEY, UNIQUE or CHECK"
  | deleteOrUpdate => "DELETE or UPDATE"
  | referentialAction => "CASCADE, RESTRICT, NO ACTION, SET NULL or SET DEFAULT"
  | nullOrDefault => "NULL or DEFAULT"
  | tableChange => "ADD, DROP, ALTER, MODIFY or RENAME"
  | columnOrConstraint => "COLUMN or CONSTRAINT"
  | renamedObject => "TO, COLUMN or CONSTRAINT"
  | columnChange => "SET, TYPE or DROP"
  | columnSetting => "DATA TYPE, DEFAULT or NOT NULL"
  | columnRemoval => "DEFAULT or NOT NULL"

end Expected

-- Expressions with more open brackets than this are refused.
def maxNesting : Nat := 64

inductive ParseFault
  -- The hint names a word that can only be a column name if it is quoted.
  | unexpected (expected : Expected) (found : Token) (quoteHint : Option String)
  | nestingTooDeep (bracket : Span)
  | constraintOnModify (column : Span)
deriving DecidableEq, Repr

-- Reading stops at the first error. There is no partial result.
structure ParseError where
  fault : ParseFault
  context : Context
deriving DecidableEq, Repr

namespace ParseError

def span (e : ParseError) : Span :=
  match e.fault with
  | .unexpected _ found _ => found.span
  | .nestingTooDeep bracket => bracket
  | .constraintOnModify column => column

def expected? (e : ParseError) : Option Expected :=
  match e.fault with
  | .unexpected expected _ _ => some expected
  | _ => none

-- The text of the token at which reading stopped.
def found? (e : ParseError) : Option String :=
  match e.fault with
  | .unexpected _ found _ => some found.literal
  | _ => none

def mismatch (expected : Expected) (found : Token) : String :=
  match found.kind with
  | .endOfInput => "unexpected end of input, expected " ++ expected.text
  | .illegal => "illegal token \x60" ++ found.literal ++ "\x60"
  | _ => "unexpected " ++ found.describe ++ ", expected " ++ expected.text

def text (e : ParseError) : String :=
  match e.fault with
  | .unexpected expected found none => mismatch expected found
  | .unexpected expected found (some word) =>
      mismatch expected found ++ "; a column named \x60" ++ word ++ "\x60 must be quoted"
  | .nestingTooDeep _ => "expression nesting exceeds " ++ toString maxNesting ++ " levels"
  | .constraintOnModify _ => "MODIFY COLUMN cannot declare constraints"

def position (source : String) (e : ParseError) : Position :=
  .ofOffset source e.span.start

def message (source : String) (e : ParseError) : String :=
  let place := e.position source
  e.text ++ " (in " ++ e.context.text ++ ", line " ++ toString place.line ++ ", column " ++
    toString place.column ++ ")"

end ParseError

end SchemaDiff
