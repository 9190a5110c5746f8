import SchemaDiff.Parser.Cursor
import SchemaDiff.Proofs.Token.Spelling

namespace SchemaDiff

open SchemaDiff.Text

-- A token without its place in the text.
structure Face where
  kind : TokenKind
  literal : String
deriving DecidableEq, Repr

def Token.face (t : Token) : Face :=
  ⟨t.kind, t.literal⟩

namespace Face

-- The text is read as this token of the grammar.
structure Genuine (d : Dialect) (f : Face) : Prop where
  significant : f.kind ≠ .comment ∧ f.kind ≠ .endOfInput ∧ f.kind ≠ .illegal
  spells : ∃ c tail, f.literal.toList = c :: tail ∧ isBlank c = false ∧
    Token.Spells d f.kind c tail

-- The token that a text is read as when nothing stands behind it.
def read (d : Dialect) (text : String) : Face :=
  match text.toList with
  | [] => ⟨.endOfInput, text⟩
  | c :: tail => ⟨(Token.lexeme d c tail).kind, text⟩

@[simp] theorem read_literal (d : Dialect) (text : String) : (read d text).literal = text := by
  unfold read
  split <;> rfl

theorem ends_nil {kind : TokenKind}
    (h : kind ≠ .comment ∧ kind ≠ .endOfInput ∧ kind ≠ .illegal) : Token.Ends kind [] := by
  cases kind with
  | symbol s => cases s <;> trivial
  | number => exact ⟨rfl, rfl⟩
  | keyword k => rfl
  | identifier => rfl
  | quotedIdentifier q => rfl
  | string => rfl
  | comment => exact absurd rfl h.1
  | endOfInput => exact absurd rfl h.2.1
  | illegal => exact absurd rfl h.2.2

-- A token is told by its text.
theorem Genuine.read_eq {d : Dialect} {f : Face} (h : f.Genuine d) : read d f.literal = f := by
  obtain ⟨hk, c, tail, htext, -, hspells⟩ := h
  have hlexeme := hspells [] (ends_nil hk)
  rw [List.append_nil] at hlexeme
  unfold read
  split
  · rename_i hnil
    rw [htext] at hnil
    cases hnil
  · rename_i e rest hcons
    rw [htext] at hcons
    obtain ⟨rfl, rfl⟩ := List.cons.inj hcons
    rw [hlexeme]

end Face

namespace Scanner

variable {d : Dialect}

theorem skipBlanks_eq_cons {offset offset' : Nat} {cs rest : List Char} {c : Char}
    (h : skipBlanks offset cs = ⟨offset', c :: rest⟩) : isBlank c = false := by
  induction cs generalizing offset with
  | nil => simp [skipBlanks] at h
  | cons e cs ih =>
      unfold skipBlanks at h
      split at h
      · exact ih h
      · rename_i he
        simp only [Scanner.mk.injEq, List.cons.injEq] at h
        rw [← h.2.1]
        simpa using he

theorem skipBlanks_of_blank {offset : Nat} {c : Char} {rest : List Char} (h : isBlank c = true) :
    skipBlanks offset (c :: rest) = skipBlanks (offset + c.utf8Size) rest := by
  rw [skipBlanks, if_pos h]

theorem next_of_blank {offset : Nat} {c : Char} {rest : List Char} (h : isBlank c = true) :
    next d ⟨offset, c :: rest⟩ = next d ⟨offset + c.utf8Size, rest⟩ := by
  simp only [next, skipBlanks_of_blank h]

theorem tokens_of_blank {offset : Nat} {c : Char} {rest : List Char} (h : isBlank c = true) :
    tokens d ⟨offset, c :: rest⟩ = tokens d ⟨offset + c.utf8Size, rest⟩ := by
  rw [tokens, tokens.eq_def d ⟨offset + c.utf8Size, rest⟩, next_of_blank h]

theorem next_eq_atEnd {s : Scanner} {offset : Nat}
    (h : skipBlanks s.offset s.rest = ⟨offset, []⟩) : (s.next d).1 = .atEnd offset := by
  simp only [next, h]

theorem next_eq {s : Scanner} {offset : Nat} {c : Char} {rest : List Char}
    (h : skipBlanks s.offset s.rest = ⟨offset, c :: rest⟩) :
    (s.next d).1.face = ⟨(Token.lexeme d c rest).kind,
      String.ofList (c :: rest.take (Token.lexeme d c rest).tail)⟩ := by
  simp only [next, h]
  rfl

-- A token that is scanned can be scanned again from its text.
theorem genuine_next {s : Scanner} (hc : (s.next d).1.face.kind ≠ .comment)
    (he : (s.next d).1.face.kind ≠ .endOfInput) (hi : (s.next d).1.face.kind ≠ .illegal) :
    (s.next d).1.face.Genuine d := by
  refine ⟨⟨hc, he, hi⟩, ?_⟩
  rcases hs : skipBlanks s.offset s.rest with ⟨offset, _ | ⟨c, rest⟩⟩
  · rw [next_eq_atEnd hs] at he
    exact absurd rfl he
  · rw [next_eq hs] at hc hi ⊢
    rcases hl : Token.lexeme d c rest with ⟨kind, n⟩
    rw [hl] at hc hi
    exact ⟨c, rest.take n, by simp, skipBlanks_eq_cons hs,
      (Token.reads_of_lexeme hl ⟨hc, hi⟩).spells⟩

theorem genuine_tokens (s : Scanner) {t : Token} (ht : t ∈ Token.significant (s.tokens d))
    (hi : t.kind ≠ .illegal) : t.face.Genuine d := by
  simp only [Token.significant, List.mem_filter, Bool.and_eq_true, bne_iff_ne] at ht
  obtain ⟨ht, hk⟩ := ht
  induction s using tokens.induct (d := d) with
  | case1 s hend =>
      rw [tokens, if_pos hend, List.mem_singleton] at ht
      exact absurd (ht ▸ hend) hk.2
  | case2 s hend ih =>
      rw [tokens, if_neg hend, List.mem_cons] at ht
      rcases ht with rfl | ht
      · exact genuine_next hk.1 hk.2 hi
      · exact ih ht

theorem tokens_nil (offset : Nat) : tokens d ⟨offset, []⟩ = [.atEnd offset] := by
  rw [tokens]
  rfl

-- A token that begins where the scanner stands.
theorem tokens_cons {offset : Nat} {c : Char} {tail rest : List Char} {kind : TokenKind}
    (hblank : isBlank c = false) (hkind : kind ≠ .endOfInput)
    (hlexeme : Token.lexeme d c (tail ++ rest) = ⟨kind, tail.length⟩) :
    tokens d ⟨offset, c :: tail ++ rest⟩ =
      ⟨kind, String.ofList (c :: tail), ⟨offset, offset + utf8Length (c :: tail)⟩⟩ ::
        tokens d ⟨offset + utf8Length (c :: tail), rest⟩ := by
  have hnext : next d ⟨offset, c :: tail ++ rest⟩ =
      (⟨kind, String.ofList (c :: tail), ⟨offset, offset + utf8Length (c :: tail)⟩⟩,
        ⟨offset + utf8Length (c :: tail), rest⟩) := by
    simp only [List.cons_append, next, skipBlanks, hblank, Bool.false_eq_true, if_false, hlexeme,
      List.take_left, List.drop_left]
  rw [tokens, hnext, if_neg hkind]

end Scanner

-- What the grammar sees of a text, wherever the text begins.
def LexesTo (d : Dialect) (cs : List Char) (faces : List Face) : Prop :=
  ∀ offset, (Token.significant (Scanner.tokens d ⟨offset, cs⟩)).map Token.face = faces

namespace LexesTo

variable {d : Dialect} {cs : List Char} {faces : List Face}

theorem ofText {text : String} (h : LexesTo d text.toList faces) :
    (Cursor.ofText d text).ahead.map Token.face = faces :=
  h 0

theorem unique {faces' : List Face} (h : LexesTo d cs faces) (h' : LexesTo d cs faces') :
    faces = faces' :=
  (h 0).symm.trans (h' 0)

theorem nil : LexesTo d [] [] := fun offset => by
  rw [Scanner.tokens_nil]
  rfl

theorem blank {c : Char} (hc : isBlank c = true) (h : LexesTo d cs faces) :
    LexesTo d (c :: cs) faces := by
  intro offset
  rw [Scanner.tokens_of_blank hc]
  exact h _

theorem blanks {space : List Char} (hs : space.all isBlank = true) (h : LexesTo d cs faces) :
    LexesTo d (space ++ cs) faces := by
  induction space with
  | nil => exact h
  | cons c space ih =>
      obtain ⟨hc, hspace⟩ := Bool.and_eq_true_iff.mp hs
      exact .blank hc (ih hspace)

theorem cons_of_lexeme {f : Face} (hf : f.Genuine d)
    (hlexeme : ∀ c tail, f.literal.toList = c :: tail →
      Token.lexeme d c (tail ++ cs) = ⟨f.kind, tail.length⟩)
    (h : LexesTo d cs faces) : LexesTo d (f.literal.toList ++ cs) (f :: faces) := by
  obtain ⟨hk, c, tail, hliteral, hblank, -⟩ := hf
  intro offset
  rw [hliteral, Scanner.tokens_cons hblank hk.2.1 (hlexeme c tail hliteral), ← hliteral,
    String.ofList_toList, Token.significant, List.filter_cons_of_pos (by simp [hk.1, hk.2.1]),
    List.map_cons]
  exact congrArg (f :: ·) (h _)

theorem cons {f : Face} (hf : f.Genuine d) (hends : Token.Ends f.kind cs)
    (h : LexesTo d cs faces) : LexesTo d (f.literal.toList ++ cs) (f :: faces) := by
  refine cons_of_lexeme hf (fun c tail htext => ?_) h
  obtain ⟨-, c', tail', hliteral, -, hspells⟩ := hf
  rw [htext] at hliteral
  cases hliteral
  exact hspells cs hends

end LexesTo

end SchemaDiff
