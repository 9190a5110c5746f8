import SchemaDiff.Expr
import SchemaDiff.Parser.Cursor

namespace SchemaDiff.Parser

-- Where an expression stands decides where it ends.
inductive ExprPlace
  -- The default of a column definition ends at the next clause of the column.
  | columnDefault
  -- The last part of a statement runs to its end.
  | statement
  -- A body in parentheses ends at the parenthesis that closes it.
  | parens
deriving DecidableEq, Repr

-- Why the collection of tokens stopped.
inductive ExprStop
  | complete | unclosed | illegal | tooDeep
deriving DecidableEq, Repr

-- Clauses of a column definition that may follow its default.
def startsClause (k : Keyword) (next : Option Token) : Bool :=
  match k with
  | .not => next.any (·.kind == .keyword .null)
  | .null | .default | .constraint | .primary | .unique | .references | .check
  | .autoIncrement => true
  | _ => false

-- Whether the token `t` stops an expression with `depth` open brackets. `isFirst` tells that no
-- token was collected yet, and `next` is the token behind `t`.
def stopAt? (place : ExprPlace) (depth : Nat) (isFirst : Bool) (t : Token)
    (next : Option Token) : Option ExprStop :=
  match t.kind with
  | .endOfInput | .symbol .semicolon =>
      some (if place = .parens then .unclosed else .complete)
  | .illegal => some .illegal
  | .symbol .rightParen => if depth = 0 then some .complete else none
  | .symbol .comma => if depth = 0 ∧ place ≠ .parens then some .complete else none
  | .symbol .leftParen | .symbol .leftBracket => if depth ≥ maxNesting then some .tooDeep else none
  | .keyword k =>
      if depth = 0 ∧ place = .columnDefault ∧ isFirst = false ∧ startsClause k next = true then
        some .complete
      else none
  | _ => none

-- Both shapes of brackets count alike.
def depthAfter (depth : Nat) (t : Token) : Nat :=
  match t.kind with
  | .symbol .leftParen | .symbol .leftBracket => depth + 1
  | .symbol .rightParen | .symbol .rightBracket => depth - 1
  | _ => depth

structure ExprSplit where
  body : List Token
  rest : List Token
  stop : ExprStop
deriving DecidableEq, Repr

-- Splits the tokens ahead into an expression and what follows it.
def splitExpr (place : ExprPlace) (depth : Nat) (isFirst : Bool) : List Token → ExprSplit
  | [] => ⟨[], [], if place = .parens then .unclosed else .complete⟩
  | t :: rest =>
      match stopAt? place depth isFirst t rest.head? with
      | some stop => ⟨[], t :: rest, stop⟩
      | none =>
          let split := splitExpr place (depthAfter depth t) false rest
          { split with body := t :: split.body }

def exprBody (place : ExprPlace) (context : Context) : Parser (List Token) := fun s =>
  let split := splitExpr place 0 true s.ahead
  let s' : Cursor := { s with ahead := split.rest }
  match split.stop with
  | .complete => if split.body.isEmpty then fail .expression context s' else .ok split.body s'
  | .unclosed => fail .closeParen context s'
  | .illegal => fail .expression context s'
  | .tooDeep => .error ⟨.nestingTooDeep s'.current.span, context⟩ s'

-- Keywords are kept in upper case, those of the grammar and those of expressions.
def exprToken (t : Token) : Ident :=
  match t.kind with
  | .keyword k => .bare k.text
  | .identifier => .bare ((Expr.keyword? t.literal).getD t.literal)
  | .quotedIdentifier q => .ofLiteral q t.literal
  | _ => .bare t.literal

def exprOf (body : List Token) : Expr :=
  ⟨body.map exprToken⟩

-- The name that a token of an expression stands for, if it is one.
def exprName? (t : Token) : Option String :=
  match t.kind with
  | .identifier => if (Expr.keyword? t.literal).isSome then none else some t.literal
  | .quotedIdentifier q => some (Text.unquote q t.literal)
  | _ => none

-- The first name that no parenthesis follows, hence no name of a function. It names a check that
-- is declared without a name.
def firstColumn? : List Token → Option String
  | [] => none
  | t :: rest =>
      if rest.head?.any (·.kind == .symbol .leftParen) then firstColumn? rest
      else exprName? t <|> firstColumn? rest

def expr (place : ExprPlace) (context : Context) : Parser Expr := do
  return exprOf (← exprBody place context)

def checkBody : Parser (List Token) :=
  inParens .checkConstraint .closeParen (exprBody .parens .checkConstraint)

end SchemaDiff.Parser
