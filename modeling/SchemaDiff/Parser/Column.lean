import SchemaDiff.Column
import SchemaDiff.Constraint.Naming
import SchemaDiff.Parser.Expr
import SchemaDiff.Parser.Name

namespace SchemaDiff.Parser

-- The first part of a type name. Only a quoted word keeps its letter case.
def typeWord? (t : Token) : Option String :=
  match t.kind with
  | .quotedIdentifier _ => some t.literal
  | .identifier => some (Text.upper t.literal)
  | .keyword k => if k.isReserved then none else some (Text.upper t.literal)
  | _ => none

-- The word that may follow a type name and be part of it.
def secondTypeWord? (name : String) : Option String :=
  if name == "DOUBLE" then some "PRECISION"
  else if ["CHARACTER", "CHAR", "BIT"].contains name then some "VARYING"
  else none

-- A type may be qualified by its schema.
def qualifiedTypeWord : Parser String := do
  match typeWord? (← current) with
  | some first =>
      let _ ← advance
      if ← consumeSymbol .dot then
        let part ← ident .dataType
        return first ++ "." ++ part.raw
      return first
  | none => fail .dataType .dataType

def typeName : Parser String := do
  let name ← qualifiedTypeWord
  match secondTypeWord? name with
  | some second =>
      if ← checkWord second then
        let _ ← advance
        return name ++ " " ++ second
      return name
  | none => return name

def typeParam : Parser Ident := do
  match (← current).kind with
  | .number | .string | .identifier => return .bare (← advance).literal
  | _ => fail .typeParameter .typeParameters

def typeParams : Parser (List Ident) := do
  if ← check (.symbol .leftParen) then
    inParens .typeParameters .commaOrCloseParen (commaSeparated typeParam)
  else return []

-- `WITH TIME ZONE` or `WITHOUT TIME ZONE` behind a type of times.
def timeZone (type : String) : Parser (List String) := do
  let start ← current
  if ["TIME", "TIMESTAMP"].contains type && (start.isWord "WITH" || start.isWord "WITHOUT") then
    let _ ← advance
    expectWord "TIME" .dataType
    expectWord "ZONE" .dataType
    return [Text.upper start.literal ++ " TIME ZONE"]
  return []

def typeSuffix? (d : Dialect) : Parser (Option String) := do
  match d.typeSuffixes.find? (← current).isWord with
  | some word =>
      let _ ← advance
      return some word
  | none => return none

-- `[]` or `[size]`. The size is not kept.
def arrayDim? : Parser (Option Unit) := do
  if ← consumeSymbol .leftBracket then
    let _ ← consume .number
    expectSymbol .rightBracket .closeBracket .dataType
    return some ()
  return none

def arrayDims (d : Dialect) : Parser (List Unit) :=
  if d.hasArrayTypes then many arrayDim? else pure []

def dataType (d : Dialect) : Parser DataType := do
  let name ← typeName
  let params ← typeParams
  let zone ← timeZone name
  let suffixes ← many (typeSuffix? d)
  let dims ← arrayDims d
  return ⟨name, params, zone ++ suffixes, dims.length⟩

def referentialAction : Parser ReferentialAction := do
  match (← current).keyword? with
  | some .cascade =>
      let _ ← advance
      return .cascade
  | some .restrict =>
      let _ ← advance
      return .restrict
  | some .no =>
      let _ ← advance
      expectKeyword .action .referentialAction
      return .noAction
  | some .set =>
      let _ ← advance
      if ← consumeKeyword .null then return .setNull
      if ← consumeKeyword .default then return .setDefault
      fail .nullOrDefault .referentialAction
  | _ => fail .referentialAction .referentialAction

-- One `ON DELETE` or `ON UPDATE`.
inductive ReferenceClause
  | onDelete (action : ReferentialAction)
  | onUpdate (action : ReferentialAction)
deriving DecidableEq, Repr

-- A clause that is written twice counts as written last.
def ReferenceClause.apply (target : Reference) : ReferenceClause → Reference
  | onDelete action => { target with onDelete := some action }
  | onUpdate action => { target with onUpdate := some action }

def referenceClause? : Parser (Option ReferenceClause) := do
  if ← consumeKeyword .onWord then
    if ← consumeKeyword .delete then
      return some (.onDelete (← referentialAction))
    if ← consumeKeyword .update then
      return some (.onUpdate (← referentialAction))
    fail .deleteOrUpdate .references
  return none

def referencedColumns : Parser (List ColumnIdent) := do
  if ← check (.symbol .leftParen) then columnList .referencedColumns
  else return []

def reference : Parser Reference := do
  expectKeyword .references .references
  let table ← objectName .referencedTable
  let columns ← referencedColumns
  let clauses ← many referenceClause?
  return clauses.foldl ReferenceClause.apply ⟨table, columns, none, none⟩

def foreignKey (d : Dialect) (table : ObjectName) (name : Option Ident)
    (columns : List ColumnIdent) : Parser Constraint := do
  let target ← reference
  return ⟨name.getD (Constraint.Naming.foreignKey d table columns), .foreignKey columns target⟩

-- The dialect decides which rule stands for a unique constraint.
def uniqueConstraint (d : Dialect) (table : ObjectName) (name : Option Ident)
    (columns : List ColumnIdent) : Constraint where
  name := name.getD (Constraint.Naming.unique d table columns)
  rule :=
    match d.uniqueStyle with
    | .constraint => .unique columns
    | .index => .index true columns

-- What may follow the data type in a column definition.
inductive ColumnClause
  | notNull
  | null
  | default (value : Expr)
  | autoIncrement
  | constraint (constraint : Constraint)
deriving DecidableEq, Repr

namespace ColumnClause

-- Clauses that contradict each other count as written last.
def apply (column : Column) : ColumnClause → Column
  | notNull => { column with notNull := true }
  | null => { column with notNull := false }
  | default value => { column with default := some value }
  | autoIncrement => { column with autoIncrement := true }
  | constraint _ => column

def constraint? : ColumnClause → Option Constraint
  | constraint c => some c
  | _ => none

end ColumnClause

-- Clauses that set an attribute of the column.
def columnAttribute? : Parser (Option ColumnClause) := do
  match (← current).keyword? with
  | some .not =>
      let _ ← advance
      expectKeyword .null .columnDefinition
      return some .notNull
  | some .null =>
      let _ ← advance
      return some .null
  | some .default =>
      let _ ← advance
      return some (.default (← expr .columnDefault .defaultExpression))
  | some .autoIncrement =>
      let _ ← advance
      return some .autoIncrement
  | _ => return none

-- Constraints may be declared with the column they are about. Attributes cannot be named.
def columnClause? (d : Dialect) (table : ObjectName) (column : Ident) :
    Parser (Option ColumnClause) := do
  let name ← constraintName?
  match (← current).keyword? with
  | some .primary =>
      let _ ← advance
      expectKeyword .key .columnDefinition
      return some (.constraint ⟨name.getD (Constraint.Naming.primaryKey d table),
        .primaryKey [.ascending column]⟩)
  | some .unique =>
      let _ ← advance
      let _ ← consumeKeyword .key
      return some (.constraint (uniqueConstraint d table name [.ascending column]))
  | some .references =>
      return some (.constraint (← foreignKey d table name [.ascending column]))
  | some .check =>
      let _ ← advance
      let body ← checkBody
      return some (.constraint ⟨name.getD (Constraint.Naming.check d table column.name),
        .check (exprOf body)⟩)
  | _ =>
      if name.isSome then fail .columnConstraint .columnConstraint
      else columnAttribute?

-- A column, and the constraints that were declared with it in the order of the source.
structure ColumnDefinition where
  column : Column
  constraints : List Constraint
deriving DecidableEq, Repr

def ColumnDefinition.ofClauses (name : Ident) (dataType : DataType)
    (clauses : List ColumnClause) : ColumnDefinition where
  column := clauses.foldl ColumnClause.apply ⟨name, dataType, false, none, false⟩
  constraints := clauses.filterMap ColumnClause.constraint?

def columnDefinition (d : Dialect) (table : ObjectName) : Parser ColumnDefinition := do
  let name ← ident .columnDefinition
  let type ← dataType d
  let clauses ← many (columnClause? d table name)
  return .ofClauses name type clauses

end SchemaDiff.Parser
