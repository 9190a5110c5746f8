import Mathlib.Data.List.Forall2
import Mathlib.Data.Option.Defs
import SchemaDiff.Proofs.TableOption

namespace SchemaDiff

-- Tokens of the grammar lead from the one cursor to the other.
def Cursor.Reaches (s s' : Cursor) : Prop :=
  ∃ read, s.ahead = read ++ s'.ahead ∧ ∀ t ∈ read, t.kind ≠ .illegal

namespace Cursor

theorem Reaches.refl (s : Cursor) : s.Reaches s :=
  ⟨[], rfl, by simp⟩

theorem Reaches.trans {s t u : Cursor} (h : s.Reaches t) (h' : t.Reaches u) : s.Reaches u := by
  obtain ⟨read, hread, hlegal⟩ := h
  obtain ⟨more, hmore, hlegal'⟩ := h'
  refine ⟨read ++ more, by rw [hread, hmore, List.append_assoc], fun t ht => ?_⟩
  exact (List.mem_append.mp ht).elim (hlegal t) (hlegal' t)

theorem Reaches.next {s : Cursor} (h : s.current.kind ≠ .illegal) : s.Reaches s.next := by
  cases hs : s.ahead with
  | nil => exact ⟨[], by simp [Cursor.next, hs], by simp⟩
  | cons t rest => exact ⟨[t], by simp [Cursor.next, hs], by simpa [current, hs] using h⟩

end Cursor

namespace Token

def IsReserved (t : Token) : Prop :=
  ∃ k, t.kind = .keyword k ∧ k.isReserved = true

-- What a text says with a token: its place is left out, and how it is written if it is a reserved
-- keyword.
def SameUnlessReserved (t t' : Token) : Prop :=
  t'.kind = t.kind ∧ (t.IsReserved ∨ t'.literal = t.literal)

-- The grammar takes the tokens for one another. A statement ends with its text as well as with a
-- semicolon.
def ReadsLike (t t' : Token) : Prop :=
  t.SameUnlessReserved t' ∨ t.kind = .endOfInput ∧ t'.kind = .symbol .semicolon

theorem kind_of_keyword? {t : Token} {k : Keyword} (h : t.keyword? = some k) :
    t.kind = .keyword k := by
  unfold Token.keyword? at h
  split at h
  · rename_i hkind
    cases h
    exact hkind
  · cases h

theorem keyword?_ne {t : Token} {k : Keyword} (h : t.keyword? = some k) :
    t.kind ≠ .endOfInput ∧ t.kind ≠ .illegal := by
  simp [kind_of_keyword? h]

theorem kind_of_isWord {t : Token} {word : String} (h : t.isWord word = true) :
    t.kind = .identifier := by
  rw [isWord, Bool.and_eq_true] at h
  exact eq_of_beq h.1

theorem isWord_ne {t : Token} {word : String} (h : t.isWord word = true) :
    t.kind ≠ .endOfInput ∧ t.kind ≠ .illegal := by
  simp [kind_of_isWord h]

theorem not_isReserved {t : Token} (h : ∀ k, t.kind ≠ .keyword k) : ¬t.IsReserved := by
  rintro ⟨k, hk, -⟩
  exact h k hk

namespace ReadsLike

variable {t t' : Token}

theorem literal_eq (h : t.ReadsLike t') (hend : t.kind ≠ .endOfInput) (hr : ¬t.IsReserved) :
    t'.literal = t.literal :=
  (h.resolve_right fun h => hend h.1).2.resolve_left hr

theorem keyword?_eq (h : t.ReadsLike t') : t'.keyword? = t.keyword? := by
  obtain ⟨hkind, -⟩ | ⟨hend, hsemicolon⟩ := h
  · rw [Token.keyword?, Token.keyword?, hkind]
  · simp [Token.keyword?, hend, hsemicolon]

-- Neither end of a statement is asked for.
theorem kind_beq (h : t.ReadsLike t') {k : TokenKind}
    (hk : k ≠ .endOfInput ∧ k ≠ .symbol .semicolon) : (t'.kind == k) = (t.kind == k) := by
  obtain ⟨hkind, -⟩ | ⟨hend, hsemicolon⟩ := h
  · rw [hkind]
  · rw [hend, hsemicolon, beq_false_of_ne hk.1.symm, beq_false_of_ne hk.2.symm]

theorem isWord_eq (h : t.ReadsLike t') (word : String) : t'.isWord word = t.isWord word := by
  rw [Token.isWord, Token.isWord, h.kind_beq (by simp)]
  by_cases hkind : t.kind = .identifier
  · rw [h.literal_eq (by simp [hkind]) (not_isReserved (by simp [hkind]))]
  · rw [beq_false_of_ne hkind, Bool.false_and, Bool.false_and]

open SchemaDiff.Parser in
theorem identOf?_eq (h : t.ReadsLike t') : identOf? t' = identOf? t := by
  obtain ⟨hkind, hliteral⟩ | ⟨hend, hsemicolon⟩ := h
  · obtain ⟨k, hk, hreserved⟩ | hliteral := hliteral
    · simp [identOf?, hkind, hk, hreserved]
    · rw [identOf?, identOf?, hkind, hliteral]
  · simp [identOf?, hend, hsemicolon]

open SchemaDiff.Parser in
theorem typeWord?_eq (h : t.ReadsLike t') : typeWord? t' = typeWord? t := by
  obtain ⟨hkind, hliteral⟩ | ⟨hend, hsemicolon⟩ := h
  · obtain ⟨k, hk, hreserved⟩ | hliteral := hliteral
    · simp [typeWord?, hkind, hk, hreserved]
    · rw [typeWord?, typeWord?, hkind, hliteral]
  · simp [typeWord?, hend, hsemicolon]

open SchemaDiff.Parser in
theorem startsTableConstraint_eq {d : Dialect} (h : t.ReadsLike t') :
    startsTableConstraint d t' = startsTableConstraint d t := by
  unfold startsTableConstraint
  rw [h.keyword?_eq]

end ReadsLike

end Token

namespace Parser

-- A way to compare two runs of a parser: which cursors it may be started at, which tokens it may see
-- there, what it may make of them, and which values of table options it may read.
structure Likeness where
  Cursors : Cursor → Cursor → Prop
  Tokens : Token → Token → Prop
  Outcome {α : Type} : (α → α → Prop) → Cursor → EStateM.Result ParseError Cursor α →
    EStateM.Result ParseError Cursor α → Prop
  Values : Ident → Ident → Prop

-- Bodies of expressions that come to the same.
def SameBody (body body' : List Token) : Prop :=
  exprOf body' = exprOf body ∧ firstColumn? body' = firstColumn? body

namespace Likeness

-- The parsers act alike.
def Alike {α : Type} (L : Likeness) (R : α → α → Prop) (p p' : Parser α) : Prop :=
  ∀ s s', L.Cursors s s' → L.Outcome R s (p s) (p' s')

-- The same at given tokens.
def AlikeAt {α : Type} (L : Likeness) (t t' : Token) (R : α → α → Prop) (p p' : Parser α) : Prop :=
  ∀ s s', L.Cursors s s' → s.current = t → s'.current = t' → L.Outcome R s (p s) (p' s')

-- The parser reads the same in both runs.
abbrev Respects {α : Type} (L : Likeness) (p : Parser α) : Prop :=
  L.Alike Eq p p

-- The parts of the parser that look at tokens or make errors by themselves, and the ways to compose
-- parsers. All other parts are composed of these.
class Lawful (L : Likeness) : Prop where
  current {s s' : Cursor} (hs : L.Cursors s s') : L.Tokens s.current s'.current
  next {s s' : Cursor} (hs : L.Cursors s s') (hend : s.current.kind ≠ .endOfInput) :
    L.Cursors s.next s'.next
  reads {t t' : Token} (ht : L.Tokens t t') : t.ReadsLike t'
  done {α : Type} {R : α → α → Prop} {a a' : α} {s u u' : Cursor} (hR : R a a') (hu : L.Cursors u u')
    (hread : s.Reaches u) : L.Outcome R s (.ok a u) (.ok a' u')
  -- The tokens that were read before count as well.
  after {α : Type} {R : α → α → Prop} {s t : Cursor}
    {result result' : EStateM.Result ParseError Cursor α} (h : L.Outcome R t result result')
    (hread : s.Reaches t) : L.Outcome R s result result'
  mono {α : Type} {R Q : α → α → Prop} {s : Cursor}
    {result result' : EStateM.Result ParseError Cursor α}
    (hRQ : ∀ a a', R a a' → Q a a') (h : L.Outcome R s result result') :
    L.Outcome Q s result result'
  bind {α β : Type} {R : α → α → Prop} {Q : β → β → Prop} {p p' : Parser α} {q q' : α → Parser β}
    {s s' : Cursor}
    (h : L.Outcome R s (p s) (p' s')) (h' : ∀ a a', R a a' → L.Alike Q (q a) (q' a')) :
    L.Outcome Q s ((p >>= q) s) ((p' >>= q') s')
  fail {α : Type} {R : α → α → Prop} (e : Expected) (c : Context) :
    L.Alike R (Parser.fail e c) (Parser.fail e c)
  onModify {α : Type} {R : α → α → Prop} {s s' : Cursor} (hs : L.Cursors s s') (c : Context) :
    L.Alike R (throw ⟨.constraintOnModify s.current.span, c⟩)
      (throw ⟨.constraintOnModify s'.current.span, c⟩)
  many {α : Type} {R : α → α → Prop} {step step' : Parser (Option α)}
    (h : L.Alike (Option.Rel R) step step') :
    L.Alike (List.Forall₂ R) (Parser.many step) (Parser.many step')
  exprBody (place : ExprPlace) (c : Context) :
    L.Alike SameBody (Parser.exprBody place c) (Parser.exprBody place c)
  quoteHint {α : Type} {t t' : Token} {body : Parser α} (ht : L.Tokens t t')
    (hend : t.kind ≠ .endOfInput) (h : L.Respects body) :
    L.Alike Eq (withQuoteHint t.literal body) (withQuoteHint t'.literal body)
  optionName (d : Dialect) : L.Respects (knownOptionName d)
  value {t t' : Token} (ht : L.Tokens t t') :
    Option.Rel L.Values (optionValue? t) (optionValue? t')
  notValid : L.Respects Parser.notValid

variable {α β : Type} {L : Likeness} [L.Lawful] {R : α → α → Prop} {Q : β → β → Prop} {p p' : Parser α}
  {q q' : α → Parser β} {t t' : Token}

namespace AlikeAt

omit [L.Lawful] in
theorem of (h : L.Alike R p p') : L.AlikeAt t t' R p p' :=
  fun s s' hs _ _ => h s s' hs

theorem advance {q q' : Token → Parser β} (hne : t.kind ≠ .endOfInput ∧ t.kind ≠ .illegal)
    (h : L.Alike Q (q t) (q' t')) :
    L.AlikeAt t t' Q (Parser.advance >>= q) (Parser.advance >>= q') := by
  rintro s s' hs rfl rfl
  exact Lawful.after (h s.next s'.next (Lawful.next hs hne.1)) (.next hne.2)

omit [L.Lawful] in
theorem current {q q' : Token → Parser β} (h : L.AlikeAt t t' Q (q t) (q' t')) :
    L.AlikeAt t t' Q (Parser.current >>= q) (Parser.current >>= q') := by
  rintro s s' hs rfl rfl
  exact h s s' hs rfl rfl

end AlikeAt

namespace Alike

theorem bind (h : L.Alike R p p') (h' : ∀ a a', R a a' → L.Alike Q (q a) (q' a')) :
    L.Alike Q (p >>= q) (p' >>= q') :=
  fun s s' hs => Lawful.bind (h s s' hs) h'

theorem pure {a a' : α} (h : R a a') : L.Alike R (pure a) (pure a') :=
  fun s _ hs => Lawful.done h hs (.refl s)

theorem mono {Q : α → α → Prop} (hRQ : ∀ a a', R a a' → Q a a') (h : L.Alike R p p') :
    L.Alike Q p p' :=
  fun s s' hs => Lawful.mono hRQ (h s s' hs)

theorem current {q q' : Token → Parser β}
    (h : ∀ t t', L.Tokens t t' → L.AlikeAt t t' Q (q t) (q' t')) :
    L.Alike Q (Parser.current >>= q) (Parser.current >>= q') :=
  fun s s' hs => h s.current s'.current (Lawful.current hs) s s' hs rfl rfl

end Alike

namespace Respects

variable {p : Parser α} {q : α → Parser β}

theorem bind (h : L.Respects p) (h' : ∀ a, L.Alike Q (q a) (q a)) : L.Alike Q (p >>= q) (p >>= q) :=
  Alike.bind h fun a _ ha => ha ▸ h' a

theorem pure (a : α) : L.Respects (pure a) :=
  Alike.pure rfl

theorem fail (e : Expected) (c : Context) : L.Alike R (Parser.fail e c) (Parser.fail e c) :=
  Lawful.fail e c

-- What may be asked of a token without noticing where the text ends.
def Plain (k : TokenKind) : Prop :=
  k ≠ .endOfInput ∧ k ≠ .symbol .semicolon ∧ k ≠ .illegal

theorem plain_keyword (k : Keyword) : Plain (.keyword k) := by
  simp [Plain]

theorem check {k : TokenKind} (hk : Plain k) : L.Respects (Parser.check k) := by
  refine Alike.current fun t t' ht => .of (.pure ?_)
  exact ((Lawful.reads ht).kind_beq ⟨hk.1, hk.2.1⟩).symm

theorem consume {k : TokenKind} (hk : Plain k) : L.Respects (Parser.consume k) := by
  have heq : Parser.consume k = Parser.current >>= fun t =>
      if t.kind == k then Parser.advance >>= fun _ => Pure.pure true else Pure.pure false := rfl
  rw [heq]
  refine Alike.current fun t t' ht => ?_
  rw [(Lawful.reads ht).kind_beq ⟨hk.1, hk.2.1⟩]
  split
  · rename_i hkind
    obtain rfl : t.kind = k := eq_of_beq hkind
    exact .advance ⟨hk.1, hk.2.2⟩ (.pure rfl)
  · exact .of (.pure rfl)

theorem consumeKeyword (k : Keyword) : L.Respects (Parser.consumeKeyword k) :=
  consume (plain_keyword k)

theorem consumeSymbol {s : Symbol} (hs : s ≠ .semicolon) : L.Respects (Parser.consumeSymbol s) :=
  consume ⟨by simp, by simpa using hs, by simp⟩

theorem expectSymbol {s : Symbol} (hs : s ≠ .semicolon) (e : Expected) (c : Context) :
    L.Respects (Parser.expectSymbol s e c) := by
  refine bind (consumeSymbol hs) fun found => ?_
  cases found with
  | true => exact pure ()
  | false => exact fail e c

theorem expectKeyword (k : Keyword) (c : Context) : L.Respects (Parser.expectKeyword k c) := by
  refine bind (consumeKeyword k) fun found => ?_
  cases found with
  | true => exact pure ()
  | false => exact fail _ c

theorem ifWord (word : String) {q r : Parser β} (hq : L.Alike Q q q) (hr : L.Alike Q r r) :
    L.Alike Q (Parser.checkWord word >>= fun found =>
        if found then Parser.advance >>= fun _ => q else r)
      (Parser.checkWord word >>= fun found =>
        if found then Parser.advance >>= fun _ => q else r) := by
  have heq : (Parser.checkWord word >>= fun found =>
      if found then Parser.advance >>= fun _ => q else r) = Parser.current >>= fun t =>
        if t.isWord word then Parser.advance >>= fun _ => q else r := rfl
  rw [heq]
  refine Alike.current fun t t' ht => ?_
  rw [(Lawful.reads ht).isWord_eq]
  split
  · rename_i hword
    exact .advance (Token.isWord_ne hword) hq
  · exact .of hr

theorem expectWord (word : String) (c : Context) : L.Respects (Parser.expectWord word c) :=
  ifWord word (pure ()) (fail _ c)

theorem many {step : Parser (Option α)} (h : L.Respects step) : L.Respects (Parser.many step) := by
  refine (Lawful.many (R := Eq) (h.mono ?_)).mono fun as as' has => ?_
  · rintro o _ rfl
    cases o with
    | none => exact .none
    | some a => exact .some rfl
  · exact List.forall₂_eq_eq_eq ▸ has

end Respects

theorem Alike.inParens (c : Context) (e : Expected) (h : L.Alike R p p') :
    L.Alike R (Parser.inParens c e p) (Parser.inParens c e p') :=
  Alike.bind (Respects.expectSymbol (by simp) _ c) fun _ _ _ => h.bind fun _ _ ha =>
    Alike.bind (Respects.expectSymbol (by simp) e c) fun _ _ _ => .pure ha

namespace Respects

theorem commaSeparated {item : Parser α} (h : L.Respects item) :
    L.Respects (Parser.commaSeparated item) := by
  refine bind h fun first => bind (many ?_) fun rest => pure (first :: rest)
  refine bind (consumeSymbol (by simp)) fun found => ?_
  cases found with
  | true => exact bind h fun a => pure (some a)
  | false => exact pure none

end Respects

end Likeness

end Parser

end SchemaDiff
