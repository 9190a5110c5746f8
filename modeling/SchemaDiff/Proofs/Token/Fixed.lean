import SchemaDiff.Proofs.Token.Printing
import SchemaDiff.Proofs.Token.Word

namespace SchemaDiff

open SchemaDiff.Text

-- How the printer writes the symbol.
def Symbol.text : Symbol → String
  | equal => "="
  | notEqual => "<>"
  | less => "<"
  | lessEqual => "<="
  | greater => ">"
  | greaterEqual => ">="
  | plus => "+"
  | minus => "-"
  | star => "*"
  | slash => "/"
  | percent => "%"
  | concat => "||"
  | doubleColon => "::"
  | tripleColon => ":::"
  | colon => ":"
  | leftParen => "("
  | rightParen => ")"
  | leftBracket => "["
  | rightBracket => "]"
  | comma => ","
  | semicolon => ";"
  | dot => "."

namespace Token

variable {d : Dialect}

theorem closedOrIllegal_ne_symbol {k : TokenKind} {s : Symbol} (hk : k ≠ .symbol s)
    (rest : List Char) (closed : Option Nat) : (closedOrIllegal k rest closed).kind ≠ .symbol s := by
  cases closed with
  | none => simp [closedOrIllegal]
  | some n => exact hk

-- A symbol begins with the first character of its text. Only `<>` has another spelling.
theorem head_of_symbol {c : Char} {rest : List Char} {s : Symbol}
    (h : (lexeme d c rest).kind = .symbol s) (hs : s ≠ .notEqual) : s.text.toList.head? = some c := by
  unfold lexeme at h
  split at h
  case h_7 =>
    split_ifs at h <;> cases h
    rfl
  case h_13 => cases h
  case h_15 => exact absurd h (closedOrIllegal_ne_symbol (by simp) _ _)
  case h_17 =>
    unfold colonLexeme at h
    split at h <;> (try split_ifs at h) <;> cases h <;> rfl
  case h_25 => exact absurd h (closedOrIllegal_ne_symbol (by simp) _ _)
  case h_26 =>
    unfold otherLexeme at h
    split_ifs at h
    · exact absurd h (closedOrIllegal_ne_symbol (by simp) _ _)
    · exact absurd h (closedOrIllegal_ne_symbol (by simp) _ _)
    · cases h
    · unfold wordLexeme at h
      dsimp only at h
      split at h <;> cases h
  all_goals
    cases h
    first
    | rfl
    | exact absurd rfl hs

end Token

namespace Face

def symbol (s : Symbol) : Face :=
  ⟨.symbol s, s.text⟩

def keyword (k : Keyword) : Face :=
  ⟨.keyword k, k.text⟩

def word (text : String) : Face :=
  ⟨.identifier, text⟩

variable {d : Dialect}

theorem genuine_symbol {s : Symbol} (h : s.isOperator = false ∨ s = .equal) :
    (symbol s).Genuine d := by
  refine ⟨by simp [symbol], ?_⟩
  cases s
  case dot => exact ⟨'.', [], rfl, by decide, fun rest hr => Token.lexeme_dot hr⟩
  case equal => exact ⟨'=', [], rfl, by decide, fun _ _ => rfl⟩
  case leftParen => exact ⟨'(', [], rfl, by decide, fun _ _ => rfl⟩
  case rightParen => exact ⟨')', [], rfl, by decide, fun _ _ => rfl⟩
  case leftBracket => exact ⟨'[', [], rfl, by decide, fun _ _ => rfl⟩
  case rightBracket => exact ⟨']', [], rfl, by decide, fun _ _ => rfl⟩
  case comma => exact ⟨',', [], rfl, by decide, fun _ _ => rfl⟩
  case semicolon => exact ⟨';', [], rfl, by decide, fun _ _ => rfl⟩
  all_goals simp [Symbol.isOperator] at h

theorem mem_all (k : Keyword) : k ∈ Keyword.all := by
  cases k <;> decide

def looksLikeWord (text : String) : Bool :=
  text.toList.head?.any (fun c => Token.startsName c && !isBlank c) &&
    text.toList.all Token.isWordPart

theorem isWord_of_looks {text : String} (h : looksLikeWord text = true) : Token.IsWord text := by
  unfold looksLikeWord at h
  cases htext : text.toList with
  | nil => simp [htext] at h
  | cons c tail =>
      simp only [htext, List.head?_cons, Option.any_some, List.all_cons, Bool.and_eq_true,
        Bool.not_eq_true', List.all_eq_true] at h
      exact ⟨c, tail, htext, h.1.1, h.1.2, h.2.2⟩

theorem isWord_keyword (k : Keyword) : Token.IsWord k.text := by
  have hall : ∀ k ∈ Keyword.all, looksLikeWord k.text = true := by decide +kernel
  exact isWord_of_looks (hall k (mem_all k))

theorem genuine_keyword {k : Keyword} (h : d.keyword? k.text = some k) : (keyword k).Genuine d := by
  have hg := Token.genuine_of_isWord (d := d) (isWord_keyword k)
  rwa [Token.wordKind, h] at hg

theorem ofWord?_text (k : Keyword) : Keyword.ofWord? k.text = some k := by
  have hall : ∀ k ∈ Keyword.all, Keyword.ofWord? k.text = some k := by decide +kernel
  exact hall k (mem_all k)

-- Keywords that every dialect knows.
theorem keyword?_text (d : Dialect) {k : Keyword} (h : k.isDialectSpecific = false) :
    d.keyword? k.text = some k := by
  simp [Dialect.keyword?, ofWord?_text, h]

theorem genuine_word {text : String} (h : Token.IsWord text) (hk : d.keyword? text = none) :
    (word text).Genuine d := by
  have hg := Token.genuine_of_isWord (d := d) h
  rwa [Token.wordKind, hk] at hg

end Face

namespace Prints

variable {d : Dialect} {text : String} {faces : List Face}

theorem space (h : Prints d text faces) : Prints d (" " ++ text) faces :=
  blanks (by decide) h

theorem keyword {k : Keyword} (h : d.keyword? k.text = some k) :
    Prints d k.text [Face.keyword k] :=
  face (f := Face.keyword k) (Face.genuine_keyword h)

-- Brackets and separators end before anything.
theorem symbol {s : Symbol} (hs : s.isOperator = false ∧ s ≠ .dot ∨ s = .equal)
    (h : Prints d text faces) : Prints d (s.text ++ text) (Face.symbol s :: faces) := by
  refine cons (f := Face.symbol s) (Face.genuine_symbol (by tauto)) (fun rest => ?_) h
  cases s <;> trivial

theorem leftParen (h : Prints d text faces) :
    Prints d ("(" ++ text) (Face.symbol .leftParen :: faces) :=
  symbol (s := .leftParen) (by decide) h

theorem rightParen (h : Prints d text faces) :
    Prints d (")" ++ text) (Face.symbol .rightParen :: faces) :=
  symbol (s := .rightParen) (by decide) h

theorem comma (h : Prints d text faces) : Prints d ("," ++ text) (Face.symbol .comma :: faces) :=
  symbol (s := .comma) (by decide) h

end Prints

theorem separates_space (text : String) : Separates (" " ++ text) :=
  separates_of_head (c := ' ') (by simp) (by decide)

-- Keywords with blanks between them.
def phrase (keywords : List Keyword) : String :=
  " ".intercalate (keywords.map Keyword.text)

theorem Prints.phrase {d : Dialect} {keywords : List Keyword}
    (h : ∀ k ∈ keywords, d.keyword? k.text = some k) :
    Prints d (SchemaDiff.phrase keywords) (keywords.map Face.keyword) := by
  cases keywords with
  | nil => exact .empty
  | cons k keywords =>
      induction keywords generalizing k with
      | nil => exact .keyword (h k (by simp))
      | cons next keywords ih =>
          have hrest := ih next fun k hk => h k (by simp [hk])
          have htext : SchemaDiff.phrase (k :: next :: keywords) =
              k.text ++ (" " ++ SchemaDiff.phrase (next :: keywords)) := by
            simp [SchemaDiff.phrase, String.append_assoc]
          rw [htext]
          exact (Prints.keyword (h k (by simp))).append hrest.space (separates_space _)

-- The keywords that every dialect knows.
theorem Prints.commonPhrase {d : Dialect} (keywords : List Keyword)
    (h : ∀ k ∈ keywords, k.isDialectSpecific = false) :
    Prints d (SchemaDiff.phrase keywords) (keywords.map Face.keyword) :=
  .phrase fun k hk => Face.keyword?_text d (h k hk)

-- Keywords in front of a text, with the blank between them.
theorem Prints.lead {d : Dialect} {text : String} {faces : List Face} (lead : String)
    (keywords : List Keyword) (hlead : lead = SchemaDiff.phrase keywords ++ " ")
    (hk : ∀ k ∈ keywords, k.isDialectSpecific = false) (h : Prints d text faces) :
    Prints d (lead ++ text) (keywords.map Face.keyword ++ faces) := by
  rw [hlead, String.append_assoc]
  exact (Prints.commonPhrase keywords hk).append h.space (separates_space text)

theorem Prints.spacedLead {d : Dialect} {text : String} {faces : List Face} (lead : String)
    (keywords : List Keyword) (hlead : lead = " " ++ (SchemaDiff.phrase keywords ++ " "))
    (hk : ∀ k ∈ keywords, k.isDialectSpecific = false) (h : Prints d text faces) :
    Prints d (lead ++ text) (keywords.map Face.keyword ++ faces) ∧ Separates (lead ++ text) := by
  rw [hlead, String.append_assoc]
  exact ⟨(h.lead _ keywords rfl hk).space, separates_space _⟩

end SchemaDiff
