import SchemaDiff.Ident
import SchemaDiff.Parser.Cursor

namespace SchemaDiff.Parser

-- A bare or quoted word, or a keyword that is not reserved.
def identOf? (t : Token) : Option Ident :=
  match t.kind with
  | .identifier => some (.bare t.literal)
  | .quotedIdentifier q => some (.ofLiteral q t.literal)
  | .keyword k => if k.isReserved then none else some (.bare t.literal)
  | _ => none

def ident (context : Context) : Parser Ident := do
  match identOf? (← current) with
  | some name =>
      let _ ← advance
      return name
  | none => fail .identifier context

def objectName (context : Context) : Parser ObjectName := do
  let first ← ident context
  if ← consumeSymbol .dot then
    return ⟨some first, ← ident context⟩
  return .ofIdent first

-- The ascending order need not be written.
def columnIdent (context : Context) : Parser ColumnIdent := do
  let name ← ident context
  if ← consumeKeyword .desc then
    return ⟨name, .descending⟩
  let _ ← consumeKeyword .asc
  return .ascending name

def columnList (context : Context) : Parser (List ColumnIdent) :=
  inParens context .commaOrCloseParen (commaSeparated (columnIdent context))

-- `CONSTRAINT name`, if it is there.
def constraintName? : Parser (Option Ident) := do
  if ← consumeKeyword .constraint then
    return some (← ident .constraintName)
  return none

def ifNotExists (context : Context) : Parser Bool := do
  if ← consumeKeyword .ifWord then
    expectKeyword .not context
    expectKeyword .existsWord context
    return true
  return false

def ifExists (context : Context) : Parser Bool := do
  if ← consumeKeyword .ifWord then
    expectKeyword .existsWord context
    return true
  return false

end SchemaDiff.Parser
