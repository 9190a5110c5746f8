import SchemaDiff.Proofs.Token.Cutting

namespace SchemaDiff

open SchemaDiff.Text

variable {d : Dialect} {behind cs gap : List Char} {faces more : List Face}

-- White space and comments. A comment ends with its line, or with the first end mark in it.
inductive Gap : List Char → Prop
  | nil : Gap []
  | blank {c : Char} {gap : List Char} (hc : isBlank c = true) (h : Gap gap) : Gap (c :: gap)
  | line {body gap : List Char} (hbody : '\n' ∉ body) (h : Gap gap) :
      Gap ('-' :: '-' :: body ++ '\n' :: gap)
  | block {body gap : List Char} (hbody : Token.commentEnd? body = some body.length) (h : Gap gap) :
      Gap ('/' :: '*' :: body ++ gap)

theorem LexesTo.comment {c : Char} {tail : List Char} (hc : isBlank c = false)
    (hlexeme : Token.lexeme d c (tail ++ cs) = ⟨.comment, tail.length⟩) (h : LexesTo d cs faces) :
    LexesTo d (c :: tail ++ cs) faces := by
  intro offset
  rw [Scanner.tokens_cons hc (by simp) hlexeme, Token.significant,
    List.filter_cons_of_neg (by simp)]
  exact h _

-- The grammar sees nothing of it.
theorem Gap.lexesTo (hgap : Gap gap) (h : LexesTo d cs faces) : LexesTo d (gap ++ cs) faces := by
  induction hgap with
  | nil => exact h
  | blank hc _ ih => exact .blank hc ih
  | @line body gap hbody _ ih =>
      have hline : ∀ e ∈ '-' :: body, (e != '\n') = true := by
        rintro e he
        rcases List.mem_cons.mp he with rfl | he
        · rfl
        · exact bne_iff_ne.mpr fun hline => hbody (hline ▸ he)
      have hlexeme : Token.lexeme d '-' ('-' :: body ++ '\n' :: (gap ++ cs)) =
          ⟨.comment, ('-' :: body).length⟩ := by
        rw [List.cons_append, Token.lexeme_minus_minus, ← List.cons_append,
          Token.takeWhile_append_of_all hline rfl]
      have hrest : LexesTo d ('\n' :: (gap ++ cs)) faces := .blank (by decide) ih
      simpa using LexesTo.comment (by decide) hlexeme hrest
  | @block body gap hbody _ ih =>
      have halone : Token.commentEnd? (body ++ []) = some body.length := by rwa [List.append_nil]
      have hend : Token.commentEnd? (body ++ (gap ++ cs)) = some body.length :=
        Token.commentEnd?_cut halone (Nat.le_refl _)
      have hlexeme : Token.lexeme d '/' ('*' :: body ++ (gap ++ cs)) =
          ⟨.comment, ('*' :: body).length⟩ := by
        rw [List.cons_append, Token.lexeme_slash_star, hend]
        rfl
      simpa using LexesTo.comment (by decide) hlexeme ih

-- The text begins with these tokens. White space and comments may stand in front of each of them and
-- behind the last one, and no token runs into what follows it.
inductive Spaced (d : Dialect) (behind : List Char) : List Face → List Char → Prop
  | nil {gap : List Char} (hgap : Gap gap) : Spaced d behind [] (gap ++ behind)
  | cons {f : Face} {gap cs : List Char} {faces : List Face} (hgap : Gap gap) (hf : f.Genuine d)
      (hends : Token.Ends f.kind cs) (h : Spaced d behind faces cs) :
      Spaced d behind (f :: faces) (gap ++ (f.literal.toList ++ cs))

theorem Spaced.lexesTo (h : Spaced d behind faces cs) (hbehind : LexesTo d behind more) :
    LexesTo d cs (faces ++ more) := by
  induction h with
  | nil hgap => exact hgap.lexesTo hbehind
  | cons hgap hf hends _ ih => exact hgap.lexesTo (.cons hf hends ih)

end SchemaDiff
