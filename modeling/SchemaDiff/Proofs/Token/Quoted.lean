import SchemaDiff.Proofs.Token.Reading
import SchemaDiff.Text.Quoted

namespace SchemaDiff

open SchemaDiff.Text

namespace Token

-- Up to the quote that closes it a quoted name holds its quotes in pairs.
theorem exists_double_of_closingQuote? {q : Char} {cs : List Char}
    (h : closingQuote? q false cs = some cs.length) : ∃ name, cs = double q name ++ [q] := by
  induction cs using closingQuote?.induct q false with
  | case1 => cases h
  | case2 => exact ⟨[], rfl⟩
  | case3 c hc => simp [closingQuote?, hc] at h
  | case4 rest ih =>
      have hrest : closingQuote? q false rest = some rest.length := by
        simpa [closingQuote?] using h
      obtain ⟨name, hname⟩ := ih hrest
      exact ⟨q :: name, by simp [double, ← hname]⟩
  | case5 e rest he => simp [closingQuote?, he] at h
  | case6 c e rest hc he ih => simp at he
  | case7 c e rest hc he ih =>
      have hrest : closingQuote? q false (e :: rest) = some (e :: rest).length := by
        simpa [closingQuote?, hc] using h
      obtain ⟨name, hname⟩ := ih hrest
      exact ⟨c :: name, by simp [double, hc, hname]⟩

def isQuotedKind : TokenKind → Bool
  | .quotedIdentifier _ => true
  | _ => false

theorem closedOrIllegal_isQuotedKind {k : TokenKind} (hk : isQuotedKind k = false) (cs : List Char)
    (closed : Option Nat) : isQuotedKind (closedOrIllegal k cs closed).kind = false := by
  cases closed with
  | none => rfl
  | some n => exact hk

-- Only the quote of the dialect opens a quoted name.
theorem eq_identifierQuote {d : Dialect} {c : Char} {cs : List Char}
    (h : isQuotedKind (lexeme d c cs).kind = true) : c = d.identifierQuote := by
  by_contra hc
  have hplain : isQuotedKind (lexeme d c cs).kind = false := by
    unfold lexeme
    split
    case h_7 => split_ifs <;> rfl
    case h_15 => exact closedOrIllegal_isQuotedKind rfl _ _
    case h_17 =>
      unfold colonLexeme
      split <;> (try split_ifs) <;> rfl
    case h_25 => exact closedOrIllegal_isQuotedKind rfl _ _
    case h_26 =>
      unfold otherLexeme
      rw [if_neg hc]
      split_ifs
      · exact closedOrIllegal_isQuotedKind rfl _ _
      · rfl
      · unfold wordLexeme
        dsimp only
        split <;> rfl
      · rfl
    all_goals rfl
  rw [hplain] at h
  exact Bool.false_ne_true h

theorem lexeme_identifierQuote (d : Dialect) (cs : List Char) :
    lexeme d d.identifierQuote cs = closedOrIllegal (.quotedIdentifier d.identifierQuote) cs
      (closingQuote? d.identifierQuote false cs) := by
  have hquote : d.identifierQuote = '"' ∨ d.identifierQuote = '\x60' := by
    cases d <;> decide
  have hplain : d.identifierQuote ∉ specialChars := not_special_of_starts (by tauto)
  rw [lexeme_eq_otherLexeme hplain, otherLexeme, if_pos rfl]

end Token

-- A quoted name is written between the quotes of the dialect, and its own quotes are doubled.
theorem Face.Genuine.exists_quote {d : Dialect} {f : Face} {q : Char} (h : f.Genuine d)
    (hk : f.kind = .quotedIdentifier q) :
    q = d.identifierQuote ∧ ∃ name, f.literal = quote q name := by
  obtain ⟨hkind, c, tail, hliteral, -, hspells⟩ := h
  have hlexeme := hspells [] (Face.ends_nil hkind)
  rw [List.append_nil, hk] at hlexeme
  have hquoted : Token.isQuotedKind (Token.lexeme d c tail).kind = true := by
    rw [hlexeme]
    rfl
  have hc := Token.eq_identifierQuote hquoted
  subst hc
  rw [Token.lexeme_identifierQuote] at hlexeme
  cases hclosed : Token.closingQuote? d.identifierQuote false tail with
  | none =>
      rw [hclosed] at hlexeme
      cases hlexeme
  | some n =>
      rw [hclosed, Token.closedOrIllegal, Token.Lexeme.mk.injEq] at hlexeme
      obtain ⟨hq, rfl⟩ := hlexeme
      cases hq
      obtain ⟨name, hname⟩ := Token.exists_double_of_closingQuote? hclosed
      refine ⟨rfl, String.ofList name, String.toList_inj.mp ?_⟩
      rw [hliteral, hname, quote, String.toList_ofList, String.toList_ofList]
      rfl

-- The name that such a literal stands for gives the literal back.
theorem Face.Genuine.quote_unquote {d : Dialect} {f : Face} {q : Char} (h : f.Genuine d)
    (hk : f.kind = .quotedIdentifier q) : quote q (unquote q f.literal) = f.literal := by
  obtain ⟨-, name, hname⟩ := h.exists_quote hk
  rw [hname, unquote_quote]

end SchemaDiff
