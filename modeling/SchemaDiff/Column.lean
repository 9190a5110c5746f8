import SchemaDiff.Expr

namespace SchemaDiff

-- A data type as written, with unquoted words in upper case. Aliases are different types.
structure DataType where
  name : String
  params : List Ident
  suffixes : List String
  arrayDims : Nat
deriving DecidableEq, Repr

namespace DataType

def sql (t : DataType) : String :=
  let params :=
    if t.params.isEmpty then "" else "(" ++ ", ".intercalate (t.params.map Ident.raw) ++ ")"
  t.name ++ params ++ String.join (t.suffixes.map (" " ++ ·)) ++
    String.join (List.replicate t.arrayDims "[]")

end DataType

structure Column where
  name : Ident
  dataType : DataType
  notNull : Bool
  default : Option Expr
  autoIncrement : Bool
deriving DecidableEq, Repr

namespace Column

def spelled (spell : Ident → String) (c : Column) : String :=
  let notNull := if c.notNull then " NOT NULL" else ""
  let default := c.default.elim "" fun e => " DEFAULT " ++ e.spelled spell
  let autoIncrement := if c.autoIncrement then " AUTO_INCREMENT" else ""
  spell c.name ++ " " ++ c.dataType.sql ++ notNull ++ default ++ autoIncrement

def sql : Column → String := spelled Ident.raw

def identity : Column → String := spelled Ident.name

end Column

end SchemaDiff
