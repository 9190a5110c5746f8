namespace SchemaDiff.Text

-- Inside quotes the quote character is written twice.
def double (q : Char) : List Char → List Char
  | [] => []
  | c :: rest => if c = q then q :: q :: double q rest else c :: double q rest

-- Pairs of quote characters are undone from left to right. A quote that stands alone is kept.
def undouble (q : Char) : List Char → List Char
  | [] => []
  | [c] => [c]
  | c :: d :: rest =>
      if c = q ∧ d = q then q :: undouble q rest else c :: undouble q (d :: rest)

def quote (q : Char) (s : String) : String :=
  String.ofList (q :: double q s.toList ++ [q])

-- The text between the quotes. A text that is not enclosed in two quote characters is returned
-- whole.
def stripQuotes (q : Char) : List Char → List Char
  | [] => []
  | c :: rest => if c = q ∧ rest.getLast? = some q then rest.dropLast else c :: rest

def unquote (q : Char) (literal : String) : String :=
  String.ofList (undouble q (stripQuotes q literal.toList))

theorem undouble_double (q : Char) (s : List Char) : undouble q (double q s) = s := by
  induction s with
  | nil => rfl
  | cons c rest ih =>
      by_cases h : c = q
      · subst h
        simp [double, undouble, ih]
      · simp only [double, h, ite_false]
        cases hd : double q rest with
        | nil =>
            rw [hd] at ih
            simp_all [undouble]
        | cons d tail => simp [undouble, h, ← hd, ih]

-- Quoting keeps the name.
theorem unquote_quote (q : Char) (s : String) : unquote q (quote q s) = s := by
  simp [unquote, quote, stripQuotes, undouble_double]

end SchemaDiff.Text
