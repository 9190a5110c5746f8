import SchemaDiff.Token.Lexeme

namespace SchemaDiff

open SchemaDiff.Text

-- The text that is still to be split into tokens, and the offset at which it starts.
structure Scanner where
  offset : Nat
  rest : List Char
deriving DecidableEq, Repr

namespace Scanner

def ofText (text : String) : Scanner :=
  ⟨0, text.toList⟩

def skipBlanks (offset : Nat) : List Char → Scanner
  | [] => ⟨offset, []⟩
  | c :: rest => if isBlank c then skipBlanks (offset + c.utf8Size) rest else ⟨offset, c :: rest⟩

-- The next token, comments included, and the scanner behind it. Blanks in front of a token belong
-- to no token. At the end of the text the next token is the end of input, again and again.
def next (d : Dialect) (s : Scanner) : Token × Scanner :=
  match skipBlanks s.offset s.rest with
  | ⟨offset, []⟩ => (.atEnd offset, ⟨offset, []⟩)
  | ⟨offset, c :: rest⟩ =>
      let found := Token.lexeme d c rest
      let literal := c :: rest.take found.tail
      let stop := offset + utf8Length literal
      (⟨found.kind, String.ofList literal, ⟨offset, stop⟩⟩, ⟨stop, rest.drop found.tail⟩)

theorem length_skipBlanks_le (offset : Nat) (cs : List Char) :
    (skipBlanks offset cs).rest.length ≤ cs.length := by
  induction cs generalizing offset with
  | nil => simp [skipBlanks]
  | cons c rest ih =>
      unfold skipBlanks
      split
      · exact Nat.le_succ_of_le (ih _)
      · exact Nat.le_refl _

-- Every token but the end of input takes a character.
theorem length_next_lt (d : Dialect) (s : Scanner) (h : (s.next d).1.kind ≠ .endOfInput) :
    (s.next d).2.rest.length < s.rest.length := by
  have hle := length_skipBlanks_le s.offset s.rest
  revert h
  unfold next
  split
  · intro h
    exact absurd rfl h
  · next offset c rest hs =>
      intro _
      rw [hs] at hle
      simp only [List.length_drop, List.length_cons] at hle ⊢
      omega

-- All tokens up to the end of input, which is the last of them.
def tokens (d : Dialect) (s : Scanner) : List Token :=
  if (s.next d).1.kind = .endOfInput then [(s.next d).1]
  else (s.next d).1 :: tokens d (s.next d).2
termination_by s.rest.length
decreasing_by exact length_next_lt d s (by assumption)

end Scanner

namespace Token

def scan (d : Dialect) (text : String) : List Token :=
  (Scanner.ofText text).tokens d

-- The tokens that the grammar sees. Its readers supply the end of input themselves.
def significant (tokens : List Token) : List Token :=
  tokens.filter fun t => t.kind != .comment && t.kind != .endOfInput

end Token

end SchemaDiff
