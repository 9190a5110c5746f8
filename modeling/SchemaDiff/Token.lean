import SchemaDiff.Keyword
import SchemaDiff.Text.Position

namespace SchemaDiff

inductive Symbol
  | equal | notEqual | less | lessEqual | greater | greaterEqual
  | plus | minus | star | slash | percent | concat
  | doubleColon | tripleColon | colon
  | leftParen | rightParen | leftBracket | rightBracket | comma | semicolon | dot
deriving DecidableEq, Repr

namespace Symbol

def isOperator : Symbol → Bool
  | leftParen | rightParen | leftBracket | rightBracket | comma | semicolon | dot => false
  | _ => true

end Symbol

inductive TokenKind
  | keyword (keyword : Keyword)
  | identifier
  | quotedIdentifier (quote : Char)
  | string
  | number
  | symbol (symbol : Symbol)
  | comment
  | endOfInput
  -- A character that starts no token, or a literal or comment that is never closed.
  | illegal
deriving DecidableEq, Repr

-- The literal is the text of the span.
structure Token where
  kind : TokenKind
  literal : String
  span : Span
deriving DecidableEq, Repr

namespace TokenKind

def describe : TokenKind → String
  | keyword k => "keyword " ++ k.text
  | identifier | quotedIdentifier _ => "identifier"
  | string => "string literal"
  | number => "number"
  | symbol _ => "symbol"
  | comment => "comment"
  | endOfInput => "end of input"
  | illegal => "illegal token"

end TokenKind

namespace Token

def atEnd (offset : Nat) : Token where
  kind := .endOfInput
  literal := ""
  span := ⟨offset, offset⟩

def keyword? (t : Token) : Option Keyword :=
  match t.kind with
  | .keyword k => some k
  | _ => none

-- The bare word `word`, in any letter case. A quoted word and a keyword are not bare.
def isWord (t : Token) (word : String) : Bool :=
  t.kind == .identifier && Text.upper t.literal == Text.upper word

-- How messages name the token.
def describe (t : Token) : String :=
  match t.kind with
  | .endOfInput => t.kind.describe
  | _ => t.kind.describe ++ " \x60" ++ t.literal ++ "\x60"

end Token

end SchemaDiff
