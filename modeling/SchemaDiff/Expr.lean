import SchemaDiff.Ident

namespace SchemaDiff

-- The body of a default, a check or an index predicate. Bodies are never evaluated. They are kept
-- as their tokens and printed with spaces of their own.
structure Expr where
  tokens : List Ident
deriving DecidableEq, Repr

namespace Expr

-- Operators, literals and functions without parentheses that are written as bare words.
def keywords : List String :=
  ["ALL", "AND", "ANY", "BETWEEN", "CASE", "CURRENT_DATE", "CURRENT_TIME", "CURRENT_TIMESTAMP",
    "CURRENT_USER", "DISTINCT", "ELSE", "END", "ESCAPE", "FALSE", "ILIKE", "IN", "IS", "LIKE",
    "LOCALTIME", "LOCALTIMESTAMP", "OR", "SIMILAR", "SOME", "THEN", "TRUE", "UNKNOWN", "WHEN"]

def keyword? (word : String) : Option String :=
  let word := Text.upper word
  keywords.find? (· == word)

def isCast (token : String) : Bool :=
  ["::", ":::"].contains token

def isOperator (token : String) : Bool :=
  ["=", "<>", "!=", "<", "<=", ">", ">=", "+", "-", "*", "/", "%", "||", ":"].contains token ||
    isCast token

def isSign (token : String) : Bool :=
  ["+", "-"].contains token

-- No space is printed behind these tokens.
def gluesRight (token : String) : Bool :=
  ["(", "[", "."].contains token || isCast token

-- No space is printed in front of these tokens.
def gluesLeft (token : String) : Bool :=
  ["(", ")", "[", "]", ",", "."].contains token || isCast token

-- A token that something can be applied to: a sign behind it is a binary operator.
def endsOperand (token : String) : Bool :=
  !(["(", "[", ","].contains token || isOperator token)

-- Two minus signs side by side, or a slash and a star, would start a comment.
def opensComment (left right : String) : Bool :=
  (left.toList.getLast? == some '-' && right.toList.head? == some '-') ||
    (left.toList.getLast? == some '/' && right.toList.head? == some '*')

-- The token that was printed last. A unary sign belongs to the token behind it.
structure Printed where
  token : String
  isUnary : Bool
deriving DecidableEq, Repr

def next (before : Option Printed) (token : String) : Printed where
  token := token
  isUnary := isSign token && !before.any (endsOperand ·.token)

def gap (before : Option Printed) (token : String) : String :=
  match before with
  | none => ""
  | some left =>
      let glued := gluesRight left.token || gluesLeft token || left.isUnary
      if glued && !opensComment left.token token then "" else " "

def joinAfter (before : Option Printed) : List String → String
  | [] => ""
  | token :: rest => gap before token ++ token ++ joinAfter (some (next before token)) rest

def join (tokens : List String) : String :=
  joinAfter none tokens

def spelled (spell : Ident → String) (e : Expr) : String :=
  join (e.tokens.map spell)

def sql : Expr → String := spelled Ident.raw

def identity : Expr → String := spelled Ident.name

end Expr

end SchemaDiff
