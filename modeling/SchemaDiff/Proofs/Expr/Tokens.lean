import SchemaDiff.Proofs.Contents
import SchemaDiff.Proofs.Token.Scanning

namespace SchemaDiff

open SchemaDiff.Text SchemaDiff.Parser

variable {d : Dialect}

-- The first token of a text that begins with no blank.
theorem Scanner.exists_tokens_of_lexeme {offset : Nat} {c : Char} {cs : List Char} {kind : TokenKind}
    {n : Nat} (hblank : isBlank c = false) (hl : Token.lexeme d c cs = ⟨kind, n⟩) :
    ∃ t stop, t.face = ⟨kind, String.ofList (c :: cs.take n)⟩ ∧
      tokens d ⟨offset, c :: cs⟩ = t :: tokens d ⟨stop, cs.drop n⟩ := by
  have hskip : skipBlanks offset (c :: cs) = ⟨offset, c :: cs⟩ := by
    rw [skipBlanks, if_neg (by simp [hblank])]
  have hne := Token.lexeme_ne_endOfInput d c cs
  rw [hl] at hne
  have hend : (next d ⟨offset, c :: cs⟩).1.kind ≠ .endOfInput := by
    simpa only [next, hskip, hl] using hne
  refine ⟨(next d ⟨offset, c :: cs⟩).1, (next d ⟨offset, c :: cs⟩).2.offset, ?_, ?_⟩
  · rw [next_eq hskip, hl]
  · rw [tokens_of_token hend]
    simp only [next, hskip, hl]

namespace Expr

-- The text of the expression is read as its tokens, one by one, and nothing else.
def KeepsTokens (d : Dialect) (e : Expr) : Prop :=
  ∃ tokens last, Token.scan d e.sql = tokens ++ [last] ∧ last.kind = .endOfInput ∧
    tokens.map Token.literal = e.raws ∧
      ∀ t ∈ tokens, t.kind ≠ .comment ∧ t.kind ≠ .illegal

-- The right token of a merging pair is read as a part of the left one.
theorem Merges.lt_tail {left right : String} (h : Merges d left right) (hright : Legible d right)
    {c : Char} {tail : List Char} (hleft : left.toList = c :: tail) (rest : List Char) :
    tail.length < (Token.lexeme d c (tail ++ (right.toList ++ rest))).tail := by
  obtain ⟨rfl, hdigit⟩ | ⟨rfl, hcast⟩ | ⟨rfl, htriple, hcolons⟩ := h
  · obtain ⟨rfl, rfl⟩ : c = '.' ∧ tail = [] := by simpa using hleft.symm
    obtain ⟨e, more, hmore⟩ := hright.head
    have he : e.isDigit = true := by simpa [hmore] using hdigit
    have hlong := Token.numberLength_of_dot (more ++ rest) he
    rw [hmore, List.nil_append, List.cons_append, Token.lexeme_dot_digit he, Token.numberLexeme]
    simp only [List.length_nil]
    omega
  · obtain ⟨rfl, rfl⟩ : c = ':' ∧ tail = [] := by simpa using hleft.symm
    obtain ⟨more, hmore⟩ : ∃ more, right.toList = ':' :: ':' :: more := by
      rcases eq_of_isCast hcast with rfl | rfl <;> exact ⟨_, rfl⟩
    rw [hmore]
    show 0 < (Token.colonLexeme d (':' :: ':' :: (more ++ rest))).tail
    cases d with
    | postgres => simp [Token.colonLexeme, Dialect.castOperators]
    | mysql => exact absurd rfl (hright.ne_mysql hcast)
    | cockroach => simp [Token.colonLexeme, Dialect.castOperators]
  · obtain ⟨rfl, rfl⟩ : c = ':' ∧ tail = [':'] := by simpa using hleft.symm
    obtain ⟨more, hmore⟩ : ∃ more, right.toList = ':' :: more := by
      simp only [isColons, List.contains_eq_mem, List.mem_cons, List.not_mem_nil, or_false,
        decide_eq_true_eq] at hcolons
      rcases hcolons with rfl | rfl | rfl <;> exact ⟨_, rfl⟩
    rw [hmore]
    show 1 < (Token.colonLexeme d (':' :: ':' :: (more ++ rest))).tail
    rw [Token.colonLexeme, if_pos htriple]
    decide

theorem Merges.take_ne {left right : String} (h : Merges d left right) (hright : Legible d right)
    {c : Char} {tail : List Char} (hleft : left.toList = c :: tail) (rest : List Char) :
    (tail ++ (right.toList ++ rest)).take
      (Token.lexeme d c (tail ++ (right.toList ++ rest))).tail ≠ tail := by
  have hlong := h.lt_tail hright hleft rest
  obtain ⟨e, more, hmore⟩ := hright.head
  intro htake
  have hlength := congrArg List.length htake
  rw [List.length_take, List.length_append, List.length_append, hmore, List.length_cons] at hlength
  rw [hmore] at hlong
  omega

theorem Merges.gap_eq {left right : String} (h : Merges d left right) (before : Option Printed) :
    gap (some (next before left)) right = "" := by
  have hglued : gluesRight left = true ∨ gluesLeft right = true := by
    obtain ⟨rfl, -⟩ | ⟨-, hcast⟩ | ⟨rfl, -⟩ := h
    · exact .inl (by decide)
    · exact .inr (by simp [gluesLeft, hcast])
    · exact .inl (by decide)
  have hcomment : opensComment left right = false := by
    obtain ⟨rfl, -⟩ | ⟨rfl, -⟩ | ⟨rfl, -⟩ := h <;> rfl
  rcases hglued with hglued | hglued <;> simp [gap, next, hglued, hcomment]

-- What is read first where the text begins with a token.
theorem exists_tokens_joinAfter (before : Option Printed) {token : String} (tokens : List String)
    {c : Char} {tail : List Char} {l : Token.Lexeme} (offset : Nat) (htoken : Legible d token)
    (htext : token.toList = c :: tail)
    (hl : Token.lexeme d c (tail ++ behind (next before token) tokens []) = l) :
    ∃ t stop, t.face = ⟨l.kind,
        String.ofList (c :: (tail ++ behind (next before token) tokens []).take l.tail)⟩ ∧
      Scanner.tokens d ⟨offset, (joinAfter before (token :: tokens)).toList⟩ =
        t :: Scanner.tokens d
          ⟨stop, (tail ++ behind (next before token) tokens []).drop l.tail⟩ := by
  have hblank : isBlank c = false := by
    obtain ⟨-, c', tail', htext', hblank, -⟩ := htoken
    rw [Face.read_literal, htext] at htext'
    cases htext'
    exact hblank
  have hjoin := joinAfter_append before token tokens []
  rw [List.append_nil, htext, List.cons_append] at hjoin
  rw [hjoin, Scanner.tokens_of_blanks (gap_blank before token)]
  exact Scanner.exists_tokens_of_lexeme hblank hl

-- A text with no merging pair is read as the tokens it was printed from.
theorem faces_joinAfter (before : Option Printed) {tokens : List String} (offset : Nat)
    (hchain : tokens.IsChain fun l r => ¬Merges d l r) (hlegible : ∀ t ∈ tokens, Legible d t) :
    (Scanner.tokens d ⟨offset, (joinAfter before tokens).toList⟩).map Token.face =
      tokens.map (Face.read d) ++ [⟨.endOfInput, ""⟩] := by
  induction tokens generalizing before offset with
  | nil =>
      rw [Scanner.tokens]
      rfl
  | cons token tokens ih =>
      have htoken := hlegible token (by simp)
      obtain ⟨c, tail, htext⟩ := htoken.head
      have hnil : Separated [] := rfl
      obtain ⟨t, stop, ht, htokens⟩ := exists_tokens_joinAfter before tokens offset htoken htext
        (lexeme_behind hnil hchain hlegible htext)
      dsimp only at ht htokens
      rw [List.take_left, ← htext, String.ofList_toList] at ht
      rw [List.drop_left, behind, List.append_nil] at htokens
      have hface : t.face = Face.read d token := by
        rw [ht, Face.mk.injEq]
        exact ⟨rfl, (Face.read_literal d token).symm⟩
      rw [htokens, List.map_cons, ih _ stop hchain.tail fun t ht => hlegible t (by simp [ht]), hface]
      rfl

-- Where the tokens are read one by one, no two of them merge.
theorem isChain_of_literals (before : Option Printed) {tokens ends : List String} (offset : Nat)
    (hlegible : ∀ t ∈ tokens, Legible d t)
    (h : (Scanner.tokens d ⟨offset, (joinAfter before tokens).toList⟩).map Token.literal =
      tokens ++ ends) : tokens.IsChain fun l r => ¬Merges d l r := by
  induction tokens generalizing before offset with
  | nil => exact .nil
  | cons token tokens ih =>
      have htoken := hlegible token (by simp)
      obtain ⟨c, tail, htext⟩ := htoken.head
      generalize hl : Token.lexeme d c (tail ++ behind (next before token) tokens []) = l
      obtain ⟨t, stop, ht, htokens⟩ :=
        exists_tokens_joinAfter before tokens offset htoken htext hl
      rw [htokens, List.map_cons, List.cons_append, List.cons.injEq] at h
      obtain ⟨hliteral, hrest⟩ := h
      have htake : (tail ++ behind (next before token) tokens []).take l.tail = tail := by
        have hlist : t.face.literal.toList = c :: tail := by
          rw [← htext]
          exact congrArg String.toList hliteral
        rw [ht, String.toList_ofList] at hlist
        exact (List.cons.inj hlist).2
      have hdrop := List.take_append_drop l.tail (tail ++ behind (next before token) tokens [])
      rw [htake] at hdrop
      rw [List.append_cancel_left hdrop, behind, List.append_nil] at hrest
      have hchain := ih _ stop (fun t ht => hlegible t (by simp [ht])) hrest
      cases tokens with
      | nil => exact .singleton _
      | cons right tokens =>
          refine .cons_cons (fun hmerges => ?_) hchain
          rw [← hl, behind_cons, hmerges.gap_eq before, String.toList_empty, List.nil_append] at htake
          exact hmerges.take_ne (hlegible right (by simp)) htext _ htake

variable {place : ExprPlace} {e : Expr}

theorem Gathered.legible (h : e.Gathered d place) : ∀ t ∈ e.raws, Legible d t := by
  intro t ht
  obtain ⟨i, hi, rfl⟩ := List.mem_map.mp ht
  exact (h.genuine i hi).1

theorem Gathered.keepsTokens (h : e.Gathered d place)
    (hchain : e.raws.IsChain fun l r => ¬Merges d l r) : e.KeepsTokens d := by
  have hfaces : (Token.scan d e.sql).map Token.face = _ := faces_joinAfter none 0 hchain h.legible
  obtain ⟨tokens, ends, hscan, htokens, hends⟩ := List.map_eq_append_iff.mp hfaces
  obtain ⟨last, hlast, hface⟩ := List.map_eq_singleton_iff.mp hends
  refine ⟨tokens, last, by rw [hscan, hlast], congrArg Face.kind hface, ?_, ?_⟩
  · have hliterals := congrArg (List.map Face.literal) htokens
    simpa [raws, List.map_map, Function.comp_def, Token.face] using hliterals
  · intro t ht
    have hmem : t.face ∈ e.raws.map (Face.read d) :=
      htokens ▸ List.mem_map_of_mem ht
    obtain ⟨raw, hraw, hread⟩ := List.mem_map.mp hmem
    have hkind := (h.legible raw hraw).significant
    rw [hread] at hkind
    exact ⟨hkind.1, hkind.2.2⟩

theorem Gathered.isChain (h : e.Gathered d place) (hkeeps : e.KeepsTokens d) :
    e.raws.IsChain fun l r => ¬Merges d l r := by
  obtain ⟨tokens, last, hscan, -, hliterals, -⟩ := hkeeps
  have hall : (Token.scan d e.sql).map Token.literal = e.raws ++ [last.literal] := by
    rw [hscan, List.map_append, hliterals]
    rfl
  exact isChain_of_literals none 0 h.legible hall

end Expr

namespace Script

-- The text of an expression keeps its tokens unless two neighbours merge.
theorem keepsTokens_iff {text : String} {s : Script} (h : parse d text = .ok s) {e : Expr}
    (he : e ∈ exprs s) : e.KeepsTokens d ↔
      e.raws.IsChain fun left right => ¬Expr.Merges d left right := by
  obtain ⟨place, hgathered⟩ := gathered_exprs h e he
  exact ⟨hgathered.isChain, hgathered.keepsTokens⟩

-- A predicate with a dot, a cast, and a minus in front of a negative number.
def castPredicate : Expr :=
  ⟨["-", "t", ".", "a", "::", "INT", "-", "-", "5"].map .bare⟩

theorem keepsTokens_castPredicate : ∃ s,
    parse .postgres "CREATE INDEX i ON t (a) WHERE -t.a::INT - -5;" = .ok s ∧
      castPredicate ∈ exprs s ∧ castPredicate.sql = "-t.a::INT - -5" ∧
        castPredicate.KeepsTokens .postgres := by
  have h : parse .postgres "CREATE INDEX i ON t (a) WHERE -t.a::INT - -5;" =
      .ok [.createIndex ⟨false, false, .ofIdent (.bare "i"), .ofIdent (.bare "t"), none,
        [.ascending (.bare "a")], some castPredicate⟩] := by
    decide +kernel
  have hmem : castPredicate ∈ exprs [.createIndex ⟨false, false, .ofIdent (.bare "i"),
      .ofIdent (.bare "t"), none, [.ascending (.bare "a")], some castPredicate⟩] := by
    decide
  exact ⟨_, h, hmem, by decide, (keepsTokens_iff h hmem).mpr (by decide)⟩

def dottedDefault : Expr :=
  ⟨["b", ".", "5"].map .bare⟩

-- The dot and the number that were apart are printed as one number.
theorem not_keepsTokens_dottedDefault : ∃ s,
    parse .postgres "CREATE TABLE t (a INT DEFAULT b . 5);" = .ok s ∧ dottedDefault ∈ exprs s ∧
      ¬dottedDefault.KeepsTokens .postgres := by
  have h : parse .postgres "CREATE TABLE t (a INT DEFAULT b . 5);" =
      .ok [.createTable ⟨false, .ofIdent (.bare "t"),
        [⟨.bare "a", ⟨"INT", [], [], 0⟩, false, some dottedDefault, false⟩], [], []⟩] := by
    decide +kernel
  have hmem : dottedDefault ∈ exprs [.createTable ⟨false, .ofIdent (.bare "t"),
      [⟨.bare "a", ⟨"INT", [], [], 0⟩, false, some dottedDefault, false⟩], [], []⟩] := by
    decide
  obtain ⟨place, hgathered⟩ := gathered_exprs h _ hmem
  exact ⟨_, h, hmem, fun hkeeps => absurd (hgathered.isChain hkeeps) (by decide)⟩

end Script

end SchemaDiff
