import SchemaDiff.Parser.Table

namespace SchemaDiff.Parser

-- `USING method`, if it is there.
def indexMethod? : Parser (Option Ident) := do
  if ← consumeKeyword .usingWord then
    return some (← ident .indexMethod)
  return none

-- `WHERE predicate`, if it is there.
def indexPredicate? : Parser (Option Expr) := do
  if ← consumeKeyword .whereWord then
    return some (← expr .statement .indexPredicate)
  return none

def createIndex (isUnique : Bool) : Parser CreateIndex := do
  let ifNotExists ← ifNotExists .createIndex
  let name ← objectName .indexName
  expectKeyword .onWord .createIndex
  let table ← objectName .tableName
  let method ← indexMethod?
  let columns ← columnList .indexColumns
  let predicate ← indexPredicate?
  return ⟨isUnique, ifNotExists, name, table, method, columns, predicate⟩

def create (d : Dialect) : Parser Statement := do
  expectKeyword .create .statement
  if ← consumeKeyword .unique then
    expectKeyword .index .createIndex
    return .createIndex (← createIndex true)
  if ← consumeKeyword .index then
    return .createIndex (← createIndex false)
  if ← consumeKeyword .table then
    return .createTable (← createTable d)
  fail .tableOrIndex .createStatement

-- Constraints that are declared with an added column are added after it.
def addedColumn (d : Dialect) (table : ObjectName) : Parser (List TableChange) := do
  let definition ← columnDefinition d table
  let isKey := definition.constraints.any fun c => !c.rule.primaryColumns.isEmpty
  let column := definition.column
  return .addColumn (if isKey then { column with notNull := true } else column) ::
    definition.constraints.map (.addConstraint · false)

def notValid : Parser Bool := do
  if (← check (.keyword .not)) && (← peek?).any (·.kind == .keyword .valid) then
    let _ ← advance
    let _ ← advance
    return true
  return false

def columnChange (d : Dialect) : Parser ColumnChange := do
  match (← current).keyword? with
  | some .set =>
      let _ ← advance
      if ← consumeKeyword .data then
        expectKeyword .type .alterColumn
        return .setDataType (← dataType d)
      if ← consumeKeyword .default then
        return .setDefault (← expr .statement .setDefault)
      if ← consumeKeyword .not then
        expectKeyword .null .alterColumn
        return .setNotNull
      fail .columnSetting .alterColumn
  | some .type =>
      let _ ← advance
      return .setDataType (← dataType d)
  | some .drop =>
      let _ ← advance
      if ← consumeKeyword .default then return .dropDefault
      if ← consumeKeyword .not then
        expectKeyword .null .alterColumn
        return .dropNotNull
      fail .columnRemoval .alterColumn
  | _ => fail .columnChange .alterColumn

def addChange (d : Dialect) (table : ObjectName) : Parser (List TableChange) := do
  if ← consumeKeyword .column then
    return ← addedColumn d table
  if startsTableConstraint d (← current) then
    let constraint ← tableConstraint d table
    return [.addConstraint constraint (← notValid)]
  addedColumn d table

def dropChange : Parser TableChange := do
  if ← consumeKeyword .column then
    return .dropColumn (← ident .columnName)
  if ← consumeKeyword .constraint then
    return .dropConstraint (← ident .constraintName)
  fail .columnOrConstraint .alterTableAction

def alterChange (d : Dialect) : Parser TableChange := do
  let _ ← consumeKeyword .column
  let name ← ident .columnName
  return .alterColumn name (← columnChange d)

-- The definition of a modified column holds no constraints.
def modifyChange (d : Dialect) (table : ObjectName) : Parser TableChange := do
  let _ ← consumeKeyword .column
  let start ← current
  let definition ← columnDefinition d table
  if definition.constraints.isEmpty then return .modifyColumn definition.column
  else throw ⟨.constraintOnModify start.span, .alterTableAction⟩

def renameChange : Parser TableChange := do
  if ← consumeKeyword .toWord then
    return .renameTable (← ident .tableName)
  if ← consumeKeyword .column then
    let old ← ident .columnName
    expectKeyword .toWord .alterTableAction
    return .renameColumn old (← ident .columnName)
  if ← consumeKeyword .constraint then
    let old ← ident .constraintName
    expectKeyword .toWord .alterTableAction
    return .renameConstraint old (← ident .constraintName)
  fail .renamedObject .alterTableAction

def tableChanges (d : Dialect) (table : ObjectName) : Parser (List TableChange) := do
  match (← current).keyword? with
  | some .add =>
      let _ ← advance
      addChange d table
  | some .drop =>
      let _ ← advance
      return [← dropChange]
  | some .alter =>
      let _ ← advance
      return [← alterChange d]
  | some .modify =>
      let _ ← advance
      return [← modifyChange d table]
  | some .rename =>
      let _ ← advance
      return [← renameChange]
  | _ => fail .tableChange .alterTableAction

-- Every change is a statement of its own.
def alterTable (d : Dialect) : Parser (List Statement) := do
  expectKeyword .alter .statement
  expectKeyword .table .alterTable
  let name ← objectName .tableName
  let changes ← commaSeparated (tableChanges d name)
  return changes.flatten.map (.alterTable name)

def drop : Parser Statement := do
  expectKeyword .drop .statement
  if ← consumeKeyword .table then
    let ifExists ← ifExists .dropTable
    return .dropTable ifExists (← objectName .tableName)
  if ← consumeKeyword .index then
    let ifExists ← ifExists .dropIndex
    let name ← objectName .indexName
    if ← consumeKeyword .onWord then
      return .dropIndex ifExists name (some (← objectName .tableName))
    return .dropIndex ifExists name none
  fail .tableOrIndex .dropStatement

-- A semicolon is needed between statements. It is read as an empty statement.
def statementEnd : Parser Unit := do
  let kind := (← current).kind
  if kind == .symbol .semicolon || kind == .endOfInput then return
  fail .semicolon .statement

def statements? (d : Dialect) : Parser (Option (List Statement)) := do
  match (← current).kind with
  | .endOfInput => return none
  | .symbol .semicolon =>
      let _ ← advance
      return some []
  | .keyword .create =>
      let statement ← create d
      statementEnd
      return some [statement]
  | .keyword .alter =>
      let statements ← alterTable d
      statementEnd
      return some statements
  | .keyword .drop =>
      let statement ← drop
      statementEnd
      return some [statement]
  | _ => fail .statement .statement

def script (d : Dialect) : Parser Script := do
  return (← many (statements? d)).flatten

end SchemaDiff.Parser

namespace SchemaDiff

def Script.parse (d : Dialect) (text : String) : Except ParseError Script :=
  match Parser.script d (.ofText d text) with
  | .ok script _ => .ok script
  | .error e _ => .error e

-- Reads on from the cursor that many times, each time from where the reading before it stopped.
def Script.parseAgain (d : Dialect) : Nat → Cursor → List (Except ParseError Script)
  | 0, _ => []
  | times + 1, s =>
      match Parser.script d s with
      | .ok script s' => .ok script :: parseAgain d times s'
      | .error e s' => .error e :: parseAgain d times s'

end SchemaDiff
