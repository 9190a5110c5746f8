import SchemaDiff.Dialect
import SchemaDiff.Token

namespace SchemaDiff.Token

open SchemaDiff.Text

-- What the next token is: its kind, and how many characters it has after its first one.
structure Lexeme where
  kind : TokenKind
  tail : Nat
deriving DecidableEq, Repr

def isWordPart (c : Char) : Bool :=
  isLetter c || isNumeral c || c == '_' || c == '$'

-- The following functions measure a token, or a part of one, at the front of the text.
def digitsLength (cs : List Char) : Nat :=
  (cs.takeWhile Char.isDigit).length

def fractionLength : List Char → Nat
  | '.' :: d :: rest => if d.isDigit then 1 + digitsLength (d :: rest) else 0
  | _ => 0

-- After a sign the digits may be missing.
def exponentLength : List Char → Nat
  | e :: d :: rest =>
      if e = 'e' ∨ e = 'E' then
        if d.isDigit then 1 + digitsLength (d :: rest)
        else if d = '+' ∨ d = '-' then 2 + digitsLength rest
        else 0
      else 0
  | _ => 0

def numberLength (cs : List Char) : Nat :=
  let whole := digitsLength cs
  let decimal := whole + fractionLength (cs.drop whole)
  decimal + exponentLength (cs.drop decimal)

-- The characters through the quote that closes the literal. A doubled quote does not close it,
-- nor does a character behind a backslash where backslashes escape.
def closingQuote? (q : Char) (escapes : Bool) : List Char → Option Nat
  | [] => none
  | [c] => if c = q then some 1 else none
  | c :: d :: rest =>
      if c = q then
        if d = q then (closingQuote? q escapes rest).map (· + 2) else some 1
      else if c = '\\' ∧ escapes = true then (closingQuote? q escapes rest).map (· + 2)
      else (closingQuote? q escapes (d :: rest)).map (· + 1)

-- The characters through the end mark of a block comment.
def commentEnd? : List Char → Option Nat
  | '*' :: '/' :: _ => some 2
  | _ :: rest => (commentEnd? rest).map (· + 1)
  | [] => none

-- A literal that is not closed runs to the end of the text.
def closedOrIllegal (kind : TokenKind) (rest : List Char) : Option Nat → Lexeme
  | some tail => ⟨kind, tail⟩
  | none => ⟨.illegal, rest.length⟩

def wordLexeme (d : Dialect) (c : Char) (rest : List Char) : Lexeme :=
  let tail := rest.takeWhile isWordPart
  match d.keyword? (String.ofList (c :: tail)) with
  | some k => ⟨.keyword k, tail.length⟩
  | none => ⟨.identifier, tail.length⟩

def numberLexeme (c : Char) (rest : List Char) : Lexeme :=
  ⟨.number, numberLength (c :: rest) - 1⟩

def colonLexeme (d : Dialect) : List Char → Lexeme
  | ':' :: ':' :: _ =>
      if d.castOperators.contains ":::" then ⟨.symbol .tripleColon, 2⟩
      else if d.castOperators.contains "::" then ⟨.symbol .doubleColon, 1⟩
      else ⟨.symbol .colon, 0⟩
  | ':' :: _ =>
      if d.castOperators.contains "::" then ⟨.symbol .doubleColon, 1⟩ else ⟨.symbol .colon, 0⟩
  | _ => ⟨.symbol .colon, 0⟩

def stringLexeme (d : Dialect) (q : Char) (rest : List Char) : Lexeme :=
  closedOrIllegal .string rest (closingQuote? q d.hasBackslashEscapes rest)

-- Where double quotes do not enclose identifiers, they enclose strings.
def otherLexeme (d : Dialect) (c : Char) (rest : List Char) : Lexeme :=
  if c = d.identifierQuote then
    closedOrIllegal (.quotedIdentifier c) rest (closingQuote? c false rest)
  else if c = '"' then stringLexeme d c rest
  else if c.isDigit then numberLexeme c rest
  else if isLetter c || c == '_' then wordLexeme d c rest
  else ⟨.illegal, 0⟩

-- The token that starts with `c`, where `rest` is the text behind `c`.
def lexeme (d : Dialect) (c : Char) (rest : List Char) : Lexeme :=
  match c, rest with
  | '(', _ => ⟨.symbol .leftParen, 0⟩
  | ')', _ => ⟨.symbol .rightParen, 0⟩
  | '[', _ => ⟨.symbol .leftBracket, 0⟩
  | ']', _ => ⟨.symbol .rightBracket, 0⟩
  | ',', _ => ⟨.symbol .comma, 0⟩
  | ';', _ => ⟨.symbol .semicolon, 0⟩
  | '.', next :: _ => if next.isDigit then numberLexeme c rest else ⟨.symbol .dot, 0⟩
  | '.', [] => ⟨.symbol .dot, 0⟩
  | '+', _ => ⟨.symbol .plus, 0⟩
  | '*', _ => ⟨.symbol .star, 0⟩
  | '%', _ => ⟨.symbol .percent, 0⟩
  | '=', _ => ⟨.symbol .equal, 0⟩
  | '-', '-' :: _ => ⟨.comment, (rest.takeWhile (· != '\n')).length⟩
  | '-', _ => ⟨.symbol .minus, 0⟩
  | '/', '*' :: body => closedOrIllegal .comment rest ((commentEnd? body).map (· + 1))
  | '/', _ => ⟨.symbol .slash, 0⟩
  | ':', _ => colonLexeme d rest
  | '<', '=' :: _ => ⟨.symbol .lessEqual, 1⟩
  | '<', '>' :: _ => ⟨.symbol .notEqual, 1⟩
  | '<', _ => ⟨.symbol .less, 0⟩
  | '>', '=' :: _ => ⟨.symbol .greaterEqual, 1⟩
  | '>', _ => ⟨.symbol .greater, 0⟩
  | '!', '=' :: _ => ⟨.symbol .notEqual, 1⟩
  | '|', '|' :: _ => ⟨.symbol .concat, 1⟩
  | '\'', _ => stringLexeme d c rest
  | _, _ => otherLexeme d c rest

end SchemaDiff.Token
