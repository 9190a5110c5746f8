import Mathlib.Data.List.Chain
import SchemaDiff.Expr
import SchemaDiff.Proofs.Token.Fixed

namespace SchemaDiff

namespace Token

def isColonKind : TokenKind → Bool
  | .symbol .colon | .symbol .doubleColon | .symbol .tripleColon => true
  | _ => false

theorem eq_colon_of_isColonKind {d : Dialect} {c : Char} {rest : List Char}
    (h : isColonKind (lexeme d c rest).kind = true) : c = ':' := by
  unfold isColonKind at h
  split at h
  case h_4 => cases h
  all_goals
    rename_i hk
    exact (Option.some.inj (head_of_symbol hk (by decide))).symm

end Token

namespace Expr

def isColons (token : String) : Bool :=
  [":", "::", ":::"].contains token

-- Two tokens that stay two tokens when they are printed with no blank between them.
structure Apart (d : Dialect) (left right : String) : Prop where
  dot : left = "." → (Face.read d right).kind ≠ .number
  cast : isCast left = true ∨ isCast right = true → isColons left = true → isColons right = false

instance (d : Dialect) (left right : String) : Decidable (Apart d left right) :=
  decidable_of_iff ((left = "." → (Face.read d right).kind ≠ .number) ∧
    (isCast left = true ∨ isCast right = true → isColons left = true → isColons right = false))
    ⟨fun h => ⟨h.1, h.2⟩, fun h => ⟨h.dot, h.cast⟩⟩

-- The right token continues the left one where the two are printed side by side: a dot makes one number
-- with digits, and colons make one operator.
def Merges (d : Dialect) (left right : String) : Prop :=
  left = "." ∧ right.toList.head?.any Char.isDigit = true ∨
    left = ":" ∧ isCast right = true ∨
      left = "::" ∧ d.castOperators.contains ":::" = true ∧ isColons right = true

instance (d : Dialect) (left right : String) : Decidable (Merges d left right) :=
  inferInstanceAs (Decidable (_ ∨ _ ∨ _))

def Legible (d : Dialect) (token : String) : Prop :=
  (Face.read d token).Genuine d

variable {d : Dialect}

theorem Legible.head {token : String} (h : Legible d token) :
    ∃ c tail, token.toList = c :: tail := by
  obtain ⟨-, c, tail, htext, -⟩ := h
  rw [Face.read_literal] at htext
  exact ⟨c, tail, htext⟩

theorem Legible.colonLexeme {token : String} {tail : List Char} (h : Legible d token)
    (htext : token.toList = ':' :: tail) : (Token.colonLexeme d tail).tail = tail.length := by
  obtain ⟨hk, c, tail', htext', -, hspells⟩ := h
  rw [Face.read_literal, htext] at htext'
  cases htext'
  have hlexeme := hspells [] (Face.ends_nil hk)
  rw [List.append_nil] at hlexeme
  exact congrArg Token.Lexeme.tail hlexeme

theorem Legible.isColons {token : String} (h : Legible d token)
    (hc : token.toList.head? = some ':') : Expr.isColons token = true := by
  obtain ⟨c, tail, htext⟩ := h.head
  obtain rfl : c = ':' := by simpa [htext] using hc
  have hlength := h.colonLexeme htext
  have htoken : token = String.ofList (':' :: tail) := by rw [← htext, String.ofList_toList]
  -- No token of colons is longer than three, and all of its characters are colons.
  have htail : tail = [] ∨ tail = [':'] ∨ tail = [':', ':'] := by
    unfold Token.colonLexeme at hlength
    split at hlength
    · rename_i rest
      split_ifs at hlength <;> simp at hlength
      simp [hlength]
    · rename_i rest _
      split_ifs at hlength
      simp at hlength
      simp [hlength]
    · exact .inl (List.length_eq_zero_iff.mp hlength.symm)
  rcases htail with rfl | rfl | rfl <;> subst htoken <;> decide

theorem Legible.isColons_of_kind {token : String} (h : Legible d token)
    (hk : Token.isColonKind (Face.read d token).kind = true) : Expr.isColons token = true := by
  obtain ⟨c, tail, htext⟩ := h.head
  refine h.isColons ?_
  rw [htext]
  simp only [Face.read, htext] at hk
  rw [Token.eq_colon_of_isColonKind hk]
  rfl

-- The text behind a token that was printed.
def behind (left : Printed) (tokens : List String) (rest : List Char) : List Char :=
  (joinAfter (some left) tokens).toList ++ rest

theorem behind_cons (left : Printed) (token : String) (tokens : List String) (rest : List Char) :
    behind left (token :: tokens) rest =
      (gap (some left) token).toList ++
        (token.toList ++ behind (next (some left) token) tokens rest) := by
  simp [behind, joinAfter]

theorem gap_eq_or (left : Printed) (token : String) :
    gap (some left) token = " " ∨ gap (some left) token = "" ∧
      (gluesRight left.token = true ∨ gluesLeft token = true ∨ left.isUnary = true) ∧
        opensComment left.token token = false := by
  simp only [gap]
  split
  · rename_i h
    simp only [Bool.and_eq_true, Bool.or_eq_true, Bool.not_eq_true'] at h
    refine .inr ⟨rfl, ?_, h.2⟩
    tauto
  · exact .inl rfl

theorem separated_space (rest : List Char) : Separated (" ".toList ++ rest) := rfl

theorem noDigit_of_separated {rest : List Char} (h : Separated rest) : Token.NoDigit rest :=
  forall_separator (by decide) h

variable {rest : List Char} (hrest : Separated rest)

theorem eq_of_isCast {token : String} (h : isCast token = true) : token = "::" ∨ token = ":::" := by
  simpa [isCast] using h

theorem isColons_of_isCast {token : String} (h : isCast token = true) : isColons token = true := by
  rcases eq_of_isCast h with rfl | rfl <;> decide

theorem Legible.ne_mysql {token : String} (h : Legible d token) (hcast : isCast token = true) :
    d ≠ .mysql := by
  rintro rfl
  rcases eq_of_isCast hcast with rfl | rfl <;> cases h.colonLexeme rfl

theorem Apart.not_merges {left right : String} (h : Apart d left right) (hright : Legible d right) :
    ¬Merges d left right := by
  rintro (⟨hdot, hdigit⟩ | ⟨rfl, hcast⟩ | ⟨rfl, -, hcolons⟩)
  · have hd := Token.noDigit_of_genuine hright (h.dot hdot) []
    rw [Face.read_literal, List.append_nil, Token.NoDigit] at hd
    obtain ⟨c, tail, htext⟩ := hright.head
    simp_all
  · have hcolons := h.cast (.inr hcast) (by decide)
    rw [isColons_of_isCast hcast] at hcolons
    cases hcolons
  · have hfalse := h.cast (.inl (by decide)) (by decide)
    rw [hcolons] at hfalse
    cases hfalse

include hrest in
theorem noDigit_behind_dot (left : Printed) {tokens : List String} (hleft : left.token = ".")
    (hchain : (left.token :: tokens).IsChain fun l r => ¬Merges d l r)
    (hlegible : ∀ t ∈ tokens, Legible d t) : Token.NoDigit (behind left tokens rest) := by
  cases tokens with
  | nil => exact noDigit_of_separated hrest
  | cons token tokens =>
      rw [behind_cons]
      rcases gap_eq_or left token with hgap | ⟨hgap, -⟩
      · rw [hgap]
        rfl
      · have hmerges := (List.isChain_cons_cons.mp hchain).1
        obtain ⟨c, tail, htext⟩ := (hlegible token (by simp)).head
        have hdigit : c.isDigit = false := by
          by_contra hdigit
          apply hmerges
          left
          exact ⟨hleft, by simpa [htext] using hdigit⟩
        rw [hgap, htext]
        simpa [Token.NoDigit] using hdigit

-- A dot ends every token, as long as no digit follows it.
theorem ends_dot {kind : TokenKind}
    (hk : kind ≠ .comment ∧ kind ≠ .endOfInput ∧ kind ≠ .illegal)
    (h : Token.NoDigit rest) : Token.Ends kind ('.' :: rest) := by
  cases kind with
  | symbol s => cases s <;> trivial
  | number =>
      refine ⟨rfl, ?_⟩
      by_contra hf
      obtain ⟨c, tail, heq, hc⟩ := Token.exists_of_fractionLength hf
      obtain rfl : rest = c :: tail := by simpa using heq
      rw [Token.NoDigit, List.head?_cons, Option.all_some, hc] at h
      exact absurd h (by decide)
  | keyword k => rfl
  | identifier => rfl
  | quotedIdentifier q => rfl
  | string => rfl
  | comment => exact absurd rfl hk.1
  | endOfInput => exact absurd rfl hk.2.1
  | illegal => exact absurd rfl hk.2.2

-- Colons end every token but themselves.
theorem ends_colon {kind : TokenKind}
    (hk : kind ≠ .comment ∧ kind ≠ .endOfInput ∧ kind ≠ .illegal)
    (h : Token.isColonKind kind = false) : Token.Ends kind (':' :: rest) := by
  cases kind with
  | symbol s => cases s <;> trivial
  | number => exact ⟨rfl, Token.fractionLength_of_ne (by decide)⟩
  | keyword k => rfl
  | identifier => rfl
  | quotedIdentifier q => rfl
  | string => rfl
  | comment => exact absurd rfl hk.1
  | endOfInput => exact absurd rfl hk.2.1
  | illegal => exact absurd rfl hk.2.2

theorem ends_before_glued {kind : TokenKind}
    (hk : kind ≠ .comment ∧ kind ≠ .endOfInput ∧ kind ≠ .illegal) {token : String}
    (hg : gluesLeft token = true) (hdot : token = "." → Token.NoDigit rest)
    (hcolon : isCast token = true → Token.isColonKind kind = false) :
    Token.Ends kind (token.toList ++ rest) := by
  simp only [gluesLeft, isCast, Bool.or_eq_true, List.contains_eq_mem, List.mem_cons,
    List.not_mem_nil, or_false, decide_eq_true_eq] at hg hcolon
  rcases hg with (rfl | rfl | rfl | rfl | rfl | rfl) | rfl | rfl
  · exact ends_of_separated hk rfl
  · exact ends_of_separated hk rfl
  · exact ends_of_separated hk rfl
  · exact ends_of_separated hk rfl
  · exact ends_of_separated hk rfl
  · exact ends_dot hk (hdot rfl)
  · exact ends_colon hk (hcolon (.inl rfl))
  · exact ends_colon hk (hcolon (.inr rfl))

theorem ends_behind_opening {token : String} (hg : gluesRight token = true)
    (hcast : isCast token = false) (hdot : token = "." → Token.NoDigit rest) :
    Token.Ends (Face.read d token).kind rest := by
  simp only [gluesRight, hcast, Bool.or_false, List.contains_eq_mem, List.mem_cons,
    List.not_mem_nil, or_false, decide_eq_true_eq] at hg
  rcases hg with rfl | rfl | rfl
  · trivial
  · trivial
  · exact hdot rfl

-- The longest cast operator is not continued by anything, and the other one only by colons.
theorem lexeme_cast {token : String} {c : Char} {tail : List Char} (h : Legible d token)
    (hcast : isCast token = true) (htext : token.toList = c :: tail)
    (hcolon : token = "::" → d.castOperators.contains ":::" = true → rest.head? ≠ some ':') :
    Token.lexeme d c (tail ++ rest) = ⟨(Face.read d token).kind, tail.length⟩ := by
  have hdialect := h.ne_mysql hcast
  rcases eq_of_isCast hcast with rfl | rfl
  · obtain ⟨rfl, rfl⟩ : c = ':' ∧ tail = [':'] := by simpa using htext.symm
    cases d with
    | postgres =>
        show Token.colonLexeme .postgres (':' :: rest) = _
        rw [Token.colonLexeme.eq_def]
        split
        · rfl
        · rfl
        · simp_all
    | mysql => exact absurd rfl hdialect
    | cockroach =>
        have hhead := hcolon rfl (by decide)
        show Token.colonLexeme .cockroach (':' :: rest) = _
        rw [Token.colonLexeme.eq_def]
        split
        · simp_all
        · rfl
        · simp_all
  · obtain ⟨rfl, rfl⟩ : c = ':' ∧ tail = [':', ':'] := by simpa using htext.symm
    cases d with
    | postgres => cases h.colonLexeme htext
    | mysql => exact absurd rfl hdialect
    | cockroach => rfl

theorem ends_behind_sign {token : String} (hs : isSign token = true)
    (hminus : token = "-" → rest.head? ≠ some '-') : Token.Ends (Face.read d token).kind rest := by
  simp only [isSign, List.contains_eq_mem, List.mem_cons, List.not_mem_nil, or_false,
    decide_eq_true_eq] at hs
  rcases hs with rfl | rfl
  · trivial
  · have hne := hminus rfl
    show rest.head?.all (· != '-') = true
    revert hne
    cases rest.head? <;> simp

include hrest in
-- Every token of an expression is read as far as it was printed, whatever follows it.
theorem lexeme_behind {before : Option Printed} {token : String} {tokens : List String} {c : Char}
    {tail : List Char} (hchain : (token :: tokens).IsChain fun l r => ¬Merges d l r)
    (hlegible : ∀ t ∈ token :: tokens, Legible d t) (htext : token.toList = c :: tail) :
    Token.lexeme d c (tail ++ behind (next before token) tokens rest) =
      ⟨(Face.read d token).kind, tail.length⟩ := by
  have htoken := hlegible token (by simp)
  have hk := htoken.significant
  have hends : Token.Ends (Face.read d token).kind (behind (next before token) tokens rest) →
      Token.lexeme d c (tail ++ behind (next before token) tokens rest) =
        ⟨(Face.read d token).kind, tail.length⟩ := by
    obtain ⟨-, c', tail', htext', -, hspells⟩ := htoken
    rw [Face.read_literal, htext] at htext'
    cases htext'
    exact hspells _
  cases tokens with
  | nil => exact hends (ends_of_separated hk hrest)
  | cons right tokens =>
      have hmerges := (List.isChain_cons_cons.mp hchain).1
      have hright := hlegible right (by simp)
      obtain ⟨e, more, hmore⟩ := hright.head
      rw [behind_cons] at hends ⊢
      rcases gap_eq_or (next before token) right with hgap | ⟨hgap, hglued, hcomment⟩
      · rw [hgap] at hends ⊢
        exact hends (ends_of_separated hk (separated_space _))
      rw [hgap] at hends ⊢
      have hhead : ∀ text, (right.toList ++ text).head? = some e := fun text => by simp [hmore]
      by_cases hcast : isCast token = true
      · refine lexeme_cast htoken hcast htext fun hdouble htriple hcolon => hmerges ?_
        have hcolons := hright.isColons (by rw [hmore]; simpa [hhead] using hcolon)
        exact .inr (.inr ⟨hdouble, htriple, hcolons⟩)
      apply hends
      show Token.Ends _ (right.toList ++ _)
      rcases hglued with hglued | hglued | hglued
      · refine ends_behind_opening hglued (by simpa using hcast) fun hdot => ?_
        have hd := noDigit_behind_dot hrest (next before token) hdot hchain
          fun t ht => hlegible t (by simp [ht])
        rw [behind_cons, hgap] at hd
        exact hd
      · refine ends_before_glued hk hglued (fun hdot => ?_) fun hright => ?_
        · exact noDigit_behind_dot hrest (next (some (next before token)) right) hdot
            (List.isChain_cons_cons.mp hchain).2 fun t ht => hlegible t (by simp [ht])
        · by_contra hcolon
          have hcolons := htoken.isColons_of_kind (by simpa using hcolon)
          have hone : token = ":" := by
            simp only [isColons, isCast, List.contains_eq_mem, List.mem_cons, List.not_mem_nil,
              or_false, decide_eq_true_eq] at hcolons hcast
            exact hcolons.resolve_right hcast
          exact hmerges (.inr (.inl ⟨hone, hright⟩))
      · have hsign : isSign token = true := by
          simp only [next, Bool.and_eq_true] at hglued
          exact hglued.1
        refine ends_behind_sign hsign fun hminus hc => ?_
        rw [hhead] at hc
        simp only [next, hminus, opensComment, hmore, List.head?_cons, hc] at hcomment
        exact absurd hcomment (by decide)

theorem gap_blank (before : Option Printed) (token : String) :
    (gap before token).toList.all Text.isBlank = true := by
  cases before with
  | none => simp [gap]
  | some left =>
      rcases gap_eq_or left token with h | ⟨h, -⟩
      · rw [h]
        decide
      · simp [h]

theorem joinAfter_append (before : Option Printed) (token : String) (tokens : List String)
    (rest : List Char) : (joinAfter before (token :: tokens)).toList ++ rest =
      (gap before token).toList ++ (token.toList ++ behind (next before token) tokens rest) := by
  simp [joinAfter, behind]

-- The text of an expression is read as the tokens that it was printed from.
theorem lexesTo_joinAfter (before : Option Printed) {tokens : List String} {more : List Face}
    (hchain : tokens.IsChain fun l r => ¬Merges d l r) (hlegible : ∀ t ∈ tokens, Legible d t)
    (hrest : Separated rest) (hmore : LexesTo d rest more) :
    LexesTo d ((joinAfter before tokens).toList ++ rest) (tokens.map (Face.read d) ++ more) := by
  induction tokens generalizing before with
  | nil => exact hmore
  | cons token tokens ih =>
      have hbehind := ih (some (next before token)) hchain.tail
        fun t ht => hlegible t (by simp [ht])
      have hcons := LexesTo.cons_of_lexeme (hlegible token (by simp))
        (fun c tail htext => lexeme_behind hrest hchain hlegible (by simpa using htext)) hbehind
      rw [Face.read_literal] at hcons
      rw [joinAfter_append]
      exact .blanks (gap_blank before token) hcons

theorem prints_join {tokens : List String} (hchain : tokens.IsChain (Apart d))
    (hlegible : ∀ t ∈ tokens, Legible d t) :
    Prints d (join tokens) (tokens.map (Face.read d)) := by
  intro rest more hrest hmore
  have hmerges : tokens.IsChain fun l r => ¬Merges d l r :=
    hchain.imp_of_mem_imp fun l r _ hr hapart => hapart.not_merges (hlegible r hr)
  exact lexesTo_joinAfter none hmerges hlegible hrest hmore

end Expr

end SchemaDiff
