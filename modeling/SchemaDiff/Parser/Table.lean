import SchemaDiff.Parser.Column
import SchemaDiff.Statement

namespace SchemaDiff.Parser

def startsTableConstraint (d : Dialect) (t : Token) : Bool :=
  match t.keyword? with
  | some .constraint | some .primary | some .foreign | some .unique | some .check => true
  | some .index | some .key => d.hasInlineIndex
  | _ => false

-- An index may be written without a name.
def indexName? : Parser (Option Ident) := do
  if ← check (.symbol .leftParen) then return none
  return some (← ident .indexName)

-- After `UNIQUE`, a word for an index may follow, with a name of its own.
def uniqueIndexName? : Parser (Option Ident) := do
  if ← consumeKeyword .key <||> consumeKeyword .index then indexName?
  else return none

def inlineIndex : Parser (Option Ident × List ColumnIdent) := do
  let name ← indexName?
  return (name, ← columnList .inlineIndex)

-- The word that opened an inline index could have been meant as the name of a column.
def withQuoteHint {α : Type} (word : String) (body : Parser α) : Parser α := fun s =>
  match body s with
  | .error ⟨.unexpected expected found _, context⟩ s' =>
      .error ⟨.unexpected expected found (some word), context⟩ s'
  | result => result

def tableConstraint (d : Dialect) (table : ObjectName) : Parser Constraint := do
  let name ← constraintName?
  let start ← current
  match start.keyword? with
  | some .primary =>
      let _ ← advance
      expectKeyword .key .tableConstraint
      let columns ← columnList .primaryKey
      return ⟨name.getD (Constraint.Naming.primaryKey d table), .primaryKey columns⟩
  | some .foreign =>
      let _ ← advance
      expectKeyword .key .tableConstraint
      foreignKey d table name (← columnList .foreignKey)
  | some .unique =>
      let _ ← advance
      let indexName ← uniqueIndexName?
      return uniqueConstraint d table (name <|> indexName) (← columnList .unique)
  | some .check =>
      let _ ← advance
      let body ← checkBody
      return ⟨name.getD (Constraint.Naming.check d table (firstColumn? body)),
        .check (exprOf body)⟩
  | some .index | some .key =>
      if d.hasInlineIndex then
        let _ ← advance
        let (indexName, columns) ← withQuoteHint start.literal inlineIndex
        return ⟨(name <|> indexName).getD (Constraint.Naming.index d table columns),
          .index false columns⟩
      else fail .tableConstraint .tableConstraint
  | _ => fail .tableConstraint .tableConstraint

-- An entry of the body of a table.
inductive TableElement
  | column (definition : ColumnDefinition)
  | constraint (constraint : Constraint)
deriving DecidableEq, Repr

namespace TableElement

def column? : TableElement → Option Column
  | column definition => some definition.column
  | constraint _ => none

def constraints : TableElement → List Constraint
  | column definition => definition.constraints
  | constraint c => [c]

end TableElement

def tableElement (d : Dialect) (table : ObjectName) : Parser TableElement := do
  if startsTableConstraint d (← current) then
    return .constraint (← tableConstraint d table)
  return .column (← columnDefinition d table)

def tableElements (d : Dialect) (table : ObjectName) : Parser (List TableElement) := do
  if ← check (.symbol .rightParen) then return []
  commaSeparated (tableElement d table)

-- The columns of a primary key are never null, whatever their own definitions say.
def forceKeysNotNull (constraints : List Constraint) (column : Column) : Column :=
  let keys := constraints.flatMap fun c => c.rule.primaryColumns
  if keys.any (·.ident.name == column.name.name) then { column with notNull := true } else column

def optionWord? (t : Token) : Option String :=
  match t.kind with
  | .identifier | .keyword _ => some (Text.upper t.literal)
  | _ => none

-- Reads words as long as they continue `name` to the beginning of a known option name.
def optionName (known : List (List String)) (name : List String) :
    List Token → List String × List Token
  | [] => (name, [])
  | t :: rest =>
      match optionWord? t with
      | some word =>
          let longer := name ++ [word]
          if known.any longer.isPrefixOf then optionName known longer rest
          else (name, t :: rest)
      | none => (name, t :: rest)

def knownOptionName (d : Dialect) : Parser (List String) := fun s =>
  let (name, rest) := optionName d.tableOptions [] s.ahead
  .ok name { s with ahead := rest }

def optionValue : Parser Ident := do
  match (← current).kind with
  | .quotedIdentifier q => return .ofLiteral q (← advance).literal
  | .identifier | .keyword _ | .number | .string => return .bare (← advance).literal
  | _ => fail .optionValue .tableOptions

def tableOption? (d : Dialect) : Parser (Option TableOption) := do
  match ← knownOptionName d with
  | [] => return none
  | name =>
      if d.tableOptions.contains name then
        let equals ← consumeSymbol .equal
        let value ← optionValue
        let _ ← consumeSymbol .comma
        return some ⟨" ".intercalate name, value, equals⟩
      else fail .tableOption .tableOptions

def tableOptions (d : Dialect) : Parser (List TableOption) :=
  many (tableOption? d)

def createTable (d : Dialect) : Parser CreateTable := do
  let ifNotExists ← ifNotExists .createTable
  let name ← objectName .tableName
  let elements ← inParens .createTable .commaOrCloseParen (tableElements d name)
  let options ← tableOptions d
  let constraints := elements.flatMap TableElement.constraints
  let columns := elements.filterMap TableElement.column?
  return ⟨ifNotExists, name, columns.map (forceKeysNotNull constraints), constraints, options⟩

end SchemaDiff.Parser
