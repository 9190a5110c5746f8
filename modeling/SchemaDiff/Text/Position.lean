namespace SchemaDiff

-- Bytes of the UTF-8 text from `start` up to, and not including, `stop`.
structure Span where
  start : Nat
  stop : Nat
deriving DecidableEq, Repr

-- Lines and columns count from one, and columns count characters.
structure Position where
  line : Nat
  column : Nat
deriving DecidableEq, Repr

namespace Text

-- The characters that end within the first `count` bytes.
def takeBytes (count : Nat) : List Char → List Char
  | [] => []
  | c :: rest =>
      if c.utf8Size ≤ count then c :: takeBytes (count - c.utf8Size) rest else []

end Text

namespace Position

-- The place after the characters of `before`.
def after (before : List Char) : Position where
  line := before.count '\n' + 1
  column := (before.reverse.takeWhile (· != '\n')).length + 1

-- An offset inside a character stands for the start of that character, and an offset past the
-- end of the text for its end.
def ofOffset (text : String) (offset : Nat) : Position :=
  after (Text.takeBytes offset text.toList)

end Position

end SchemaDiff
