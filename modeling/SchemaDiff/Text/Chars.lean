import SchemaDiff.Text.CharRanges

namespace SchemaDiff.Text

def inRanges (ranges : List (Nat × Nat)) (c : Char) : Bool :=
  ranges.any fun (first, last) => first ≤ c.toNat && c.toNat ≤ last

-- The ASCII characters are tested directly, so that plain text never reads a table.
def isBlank (c : Char) : Bool :=
  if c.toNat < 0x80 then c == ' ' || ('\t' ≤ c && c ≤ '\r') else inRanges blankRanges c

def isLetter (c : Char) : Bool :=
  if c.toNat < 0x80 then c.isAlpha else inRanges alphabeticRanges c

def isNumeral (c : Char) : Bool :=
  if c.toNat < 0x80 then c.isDigit else inRanges numericRanges c

-- Words of SQL are compared without regard to the case of ASCII letters. Other letters count
-- as they are.
def upper (s : String) : String :=
  String.ofList (s.toList.map Char.toUpper)

def lower (s : String) : String :=
  String.ofList (s.toList.map Char.toLower)

def utf8Length : List Char → Nat
  | [] => 0
  | c :: rest => c.utf8Size + utf8Length rest

end SchemaDiff.Text
