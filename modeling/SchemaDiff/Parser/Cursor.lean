import SchemaDiff.Parser.Error
import SchemaDiff.Token.Scanner

namespace SchemaDiff

-- The tokens that are still to be read, without comments, and the offset where the text ends.
structure Cursor where
  ahead : List Token
  stop : Nat
deriving DecidableEq, Repr

namespace Cursor

def ofText (d : Dialect) (text : String) : Cursor :=
  ⟨Token.significant (Token.scan d text), text.utf8ByteSize⟩

-- At the end of the text the current token is the end of input, however often it is read.
def current (s : Cursor) : Token :=
  match s.ahead with
  | t :: _ => t
  | [] => .atEnd s.stop

def next (s : Cursor) : Cursor :=
  { s with ahead := s.ahead.tail }

end Cursor

-- A parser that fails leaves the cursor at the token it failed on.
abbrev Parser := EStateM ParseError Cursor

namespace Parser

def current : Parser Token := fun s =>
  .ok s.current s

-- The token behind the current one.
def peek? : Parser (Option Token) := fun s =>
  .ok s.ahead.tail.head? s

def advance : Parser Token := fun s =>
  .ok s.current s.next

def fail {α : Type} (expected : Expected) (context : Context) : Parser α := fun s =>
  .error ⟨.unexpected expected s.current none, context⟩ s

def check (kind : TokenKind) : Parser Bool := do
  return (← current).kind == kind

def checkWord (word : String) : Parser Bool := do
  return (← current).isWord word

def consume (kind : TokenKind) : Parser Bool := do
  if ← check kind then
    let _ ← advance
    return true
  return false

def consumeKeyword (k : Keyword) : Parser Bool :=
  consume (.keyword k)

def consumeSymbol (s : Symbol) : Parser Bool :=
  consume (.symbol s)

def expectSymbol (s : Symbol) (expected : Expected) (context : Context) : Parser Unit := do
  if ← consumeSymbol s then return
  fail expected context

def expectKeyword (k : Keyword) (context : Context) : Parser Unit := do
  if ← consumeKeyword k then return
  fail (.keyword k) context

def expectWord (word : String) (context : Context) : Parser Unit := do
  if ← checkWord word then
    let _ ← advance
    return
  fail (.word word) context

-- Runs `step` until it returns nothing. A step that reads no token is the last one, so the
-- tokens ahead bound the number of steps.
def many {α : Type} (step : Parser (Option α)) (s : Cursor) :
    EStateM.Result ParseError Cursor (List α) :=
  match step s with
  | .error e s' => .error e s'
  | .ok none s' => .ok [] s'
  | .ok (some a) s' =>
      if s'.ahead.length < s.ahead.length then
        match many step s' with
        | .ok rest s'' => .ok (a :: rest) s''
        | .error e s'' => .error e s''
      else .ok [a] s'
termination_by s.ahead.length

-- One item, or several with commas between them.
def commaSeparated {α : Type} (item : Parser α) : Parser (List α) := do
  let first ← item
  let rest ← many do
    if ← consumeSymbol .comma then
      return some (← item)
    return none
  return first :: rest

def inParens {α : Type} (context : Context) (closing : Expected) (body : Parser α) :
    Parser α := do
  expectSymbol .leftParen .openParen context
  let result ← body
  expectSymbol .rightParen closing context
  return result

end Parser

end SchemaDiff
