import SchemaDiff.Proofs.Parser.Steps

namespace SchemaDiff

variable {α β : Type} {d : Dialect}

-- A token as the scanner makes it.
def Token.Scanned (d : Dialect) (t : Token) : Prop :=
  t.kind ≠ .endOfInput → t.kind ≠ .illegal → t.face.Genuine d

def Cursor.Scanned (d : Dialect) (s : Cursor) : Prop :=
  ∀ t ∈ s.ahead, t.Scanned d

namespace Cursor.Scanned

theorem ofText (d : Dialect) (text : String) : (Cursor.ofText d text).Scanned d :=
  fun _ ht _ hi => Scanner.genuine_tokens _ ht hi

theorem current {s : Cursor} (h : s.Scanned d) : s.current.Scanned d := by
  unfold Cursor.current
  cases hs : s.ahead with
  | nil => exact fun he => absurd rfl he
  | cons t rest => exact h t (by simp [hs])

theorem of_subset {s s' : Cursor} (h : s.Scanned d) (hsub : s'.ahead ⊆ s.ahead) : s'.Scanned d :=
  fun t ht => h t (hsub ht)

theorem next {s : Cursor} (h : s.Scanned d) : s.next.Scanned d :=
  h.of_subset fun _ ht => List.mem_of_mem_tail ht

end Cursor.Scanned

-- Nothing but the end of a statement is ahead.
def Cursor.AtEnd (s : Cursor) : Prop :=
  s.current.kind = .symbol .semicolon ∨ s.current.kind = .endOfInput

namespace Parser

-- Whatever the parser makes of scanned tokens has the property.
def Yields (d : Dialect) (p : Parser α) (P : α → Prop) : Prop :=
  ∀ s a s', s.Scanned d → p s = .ok a s' → P a ∧ s'.Scanned d

-- The same for a cursor that stands at a given token.
def YieldsAt (d : Dialect) (t : Token) (p : Parser α) (P : α → Prop) : Prop :=
  ∀ s a s', s.Scanned d → s.current = t → p s = .ok a s' → P a ∧ s'.Scanned d

theorem YieldsAt.of {p : Parser α} {P : α → Prop} {t : Token} (h : Yields d p P) :
    YieldsAt d t p P :=
  fun s a s' hs _ hp => h s a s' hs hp

theorem YieldsAt.bind {p : Parser α} {q : α → Parser β} {P : α → Prop} {Q : β → Prop} {t : Token}
    (h : YieldsAt d t p P) (h' : ∀ a, P a → Yields d (q a) Q) : YieldsAt d t (p >>= q) Q := by
  intro s b s' hs ht hb
  obtain ⟨a, u, hp, hq⟩ := bind_eq_ok.mp hb
  obtain ⟨hP, hu⟩ := h s a u hs ht hp
  exact h' a hP u b s' hu hq

theorem YieldsAt.advance {q : Token → Parser β} {Q : β → Prop} {t : Token}
    (h : Yields d (q t) Q) : YieldsAt d t (Parser.advance >>= q) Q := by
  intro s b s' hs ht hb
  subst ht
  exact h s.next b s' hs.next hb

namespace Yields

variable {p : Parser α} {q : α → Parser β} {P : α → Prop} {Q : β → Prop}

theorem mono {P' : α → Prop} (h : Yields d p P) (hP : ∀ a, P a → P' a) : Yields d p P' :=
  fun s a s' hs hp => ⟨hP a (h s a s' hs hp).1, (h s a s' hs hp).2⟩

theorem pure {a : α} (h : P a) : Yields d (pure a) P := by
  intro s b s' hs hp
  cases hp
  exact ⟨h, hs⟩

theorem fail {e : Expected} {c : Context} : Yields d (Parser.fail e c) P := by
  intro s a s' _ hp
  cases hp

theorem bind (h : Yields d p P) (h' : ∀ a, P a → Yields d (q a) Q) : Yields d (p >>= q) Q := by
  intro s b s' hs hb
  obtain ⟨a, u, hp, hq⟩ := bind_eq_ok.mp hb
  obtain ⟨hP, hu⟩ := h s a u hs hp
  exact h' a hP u b s' hu hq

theorem current {q : Token → Parser β} (h : ∀ t : Token, t.Scanned d → YieldsAt d t (q t) Q) :
    Yields d (Parser.current >>= q) Q :=
  fun s b s' hs hb => h s.current hs.current s b s' hs rfl hb

theorem advance {q : Token → Parser β} (h : ∀ t, Yields d (q t) Q) :
    Yields d (Parser.advance >>= q) Q :=
  fun s b s' hs hb => h s.current s.next b s' hs.next hb

theorem ite {b : Bool} {p' : Parser α} (h : Yields d p P) (h' : Yields d p' P) :
    Yields d (if b then p else p') P := by
  cases b with
  | true => exact h
  | false => exact h'

-- Where the tokens do not matter, only that they were scanned is kept.
theorem check {k : TokenKind} : Yields d (Parser.check k) fun _ => True :=
  current fun _ _ => .of (pure trivial)

theorem checkWord {word : String} : Yields d (Parser.checkWord word) fun _ => True :=
  current fun _ _ => .of (pure trivial)

theorem consume {k : TokenKind} : Yields d (Parser.consume k) fun _ => True := by
  refine bind check fun b _ => ?_
  cases b with
  | true => exact advance fun _ => pure trivial
  | false => exact pure trivial

theorem expectSymbol {s : Symbol} {e : Expected} {c : Context} :
    Yields d (Parser.expectSymbol s e c) fun _ => True := by
  refine bind consume fun b _ => ?_
  cases b with
  | true => exact pure trivial
  | false => exact fail

theorem expectKeyword {k : Keyword} {c : Context} :
    Yields d (Parser.expectKeyword k c) fun _ => True := by
  refine bind consume fun b _ => ?_
  cases b with
  | true => exact pure trivial
  | false => exact fail

theorem expectWord {word : String} {c : Context} :
    Yields d (Parser.expectWord word c) fun _ => True := by
  refine bind checkWord fun b _ => ?_
  cases b with
  | true => exact advance fun _ => pure trivial
  | false => exact fail

theorem inParens {c : Context} {e : Expected} (h : Yields d p P) :
    Yields d (Parser.inParens c e p) P :=
  bind expectSymbol fun _ _ => bind h fun _ ha => bind expectSymbol fun _ _ => pure ha

theorem many {step : Parser (Option α)} (h : Yields d step fun o => ∀ a ∈ o, P a) :
    Yields d (Parser.many step) fun as => ∀ a ∈ as, P a := by
  intro s as s' hs hp
  induction s using Parser.many.induct step generalizing as s' with
  | case1 s e t hstep =>
      rw [Parser.many, hstep] at hp
      cases hp
  | case2 s t hstep =>
      rw [Parser.many, hstep] at hp
      cases hp
      exact ⟨by simp, (h s none _ hs hstep).2⟩
  | case3 s a t hstep hlt rest u hrest ih =>
      rw [Parser.many, hstep] at hp
      simp only [if_pos hlt, hrest] at hp
      cases hp
      obtain ⟨ha, ht⟩ := h s _ t hs hstep
      obtain ⟨hall, hu⟩ := ih rest _ ht hrest
      exact ⟨by simpa using ⟨ha a rfl, hall⟩, hu⟩
  | case4 s a t hstep hlt e u hrest ih =>
      rw [Parser.many, hstep] at hp
      simp only [if_pos hlt, hrest] at hp
      cases hp
  | case5 s a t hstep hlt =>
      rw [Parser.many, hstep] at hp
      simp only [if_neg hlt] at hp
      cases hp
      obtain ⟨ha, ht⟩ := h s _ _ hs hstep
      exact ⟨by simpa using ha, ht⟩

theorem commaSeparated (h : Yields d p P) :
    Yields d (Parser.commaSeparated p) fun as => as ≠ [] ∧ ∀ a ∈ as, P a := by
  refine bind h fun a ha => bind (P := fun as => ∀ a ∈ as, P a) (many ?_) fun as has => pure ?_
  · refine bind consume fun b _ => ?_
    cases b with
    | true => exact bind h fun b hb => pure (by simpa using hb)
    | false => exact pure (by simp)
  · exact ⟨List.cons_ne_nil a as, by simpa using ⟨ha, has⟩⟩

end Yields

-- A default is cut off by the end of a statement, and then it may be one that cannot be read again.
-- Nothing is read from there on.
def YieldsOrEnds (d : Dialect) (p : Parser α) (P : α → Prop) : Prop :=
  ∀ s a s', s.Scanned d → p s = .ok a s' → (P a ∨ s'.AtEnd) ∧ s'.Scanned d

def YieldsOrEndsAt (d : Dialect) (t : Token) (p : Parser α) (P : α → Prop) : Prop :=
  ∀ s a s', s.Scanned d → s.current = t → p s = .ok a s' → (P a ∨ s'.AtEnd) ∧ s'.Scanned d

namespace YieldsOrEndsAt

variable {p : Parser α} {P : α → Prop} {Q : β → Prop} {t : Token}

theorem of (h : YieldsOrEnds d p P) : YieldsOrEndsAt d t p P :=
  fun s a s' hs _ hp => h s a s' hs hp

theorem bind {q : α → Parser β} (h : YieldsAt d t p P)
    (h' : ∀ a, P a → YieldsOrEnds d (q a) Q) : YieldsOrEndsAt d t (p >>= q) Q := by
  intro s b s' hs ht hb
  obtain ⟨a, u, hp, hq⟩ := bind_eq_ok.mp hb
  obtain ⟨hP, hu⟩ := h s a u hs ht hp
  exact h' a hP u b s' hu hq

theorem advance {q : Token → Parser β} (h : YieldsOrEnds d (q t) Q) :
    YieldsOrEndsAt d t (Parser.advance >>= q) Q := by
  intro s b s' hs ht hb
  subst ht
  exact h s.next b s' hs.next hb

theorem map {f : α → β} (h : YieldsOrEndsAt d t p P) (h' : ∀ a, P a → Q (f a)) :
    YieldsOrEndsAt d t (p >>= fun a => Pure.pure (f a)) Q := by
  intro s b s' hs ht hb
  obtain ⟨a, u, hp, hq⟩ := bind_eq_ok.mp hb
  cases hq
  exact ⟨(h s a _ hs ht hp).1.imp_left (h' a), (h s a _ hs ht hp).2⟩

end YieldsOrEndsAt

namespace YieldsOrEnds

variable {p : Parser α} {q : α → Parser β} {P : α → Prop} {Q : β → Prop}

theorem of (h : Yields d p P) : YieldsOrEnds d p P :=
  fun s a s' hs hp => ⟨.inl (h s a s' hs hp).1, (h s a s' hs hp).2⟩

theorem bind (h : Yields d p P) (h' : ∀ a, P a → YieldsOrEnds d (q a) Q) :
    YieldsOrEnds d (p >>= q) Q := by
  intro s b s' hs hb
  obtain ⟨a, u, hp, hq⟩ := bind_eq_ok.mp hb
  obtain ⟨hP, hu⟩ := h s a u hs hp
  exact h' a hP u b s' hu hq

theorem current {q : Token → Parser β}
    (h : ∀ t : Token, t.Scanned d → YieldsOrEndsAt d t (q t) Q) :
    YieldsOrEnds d (Parser.current >>= q) Q :=
  fun s b s' hs hb => h s.current hs.current s b s' hs rfl hb

theorem map {f : α → β} (h : YieldsOrEnds d p P) (h' : ∀ a, P a → Q (f a)) :
    YieldsOrEnds d (p >>= fun a => Pure.pure (f a)) Q := by
  intro s b s' hs hb
  obtain ⟨a, u, hp, hq⟩ := bind_eq_ok.mp hb
  cases hq
  exact ⟨(h s a _ hs hp).1.imp_left (h' a), (h s a _ hs hp).2⟩

theorem many {step : Parser (Option α)} (h : YieldsOrEnds d step fun o => ∀ a ∈ o, P a)
    (hstop : ∀ s : Cursor, s.AtEnd → step s = .ok none s) :
    YieldsOrEnds d (Parser.many step) fun as => ∀ a ∈ as, P a := by
  intro s as s' hs hp
  induction s using Parser.many.induct step generalizing as s' with
  | case1 s e t hstep =>
      rw [Parser.many, hstep] at hp
      cases hp
  | case2 s t hstep =>
      rw [Parser.many, hstep] at hp
      cases hp
      exact ⟨.inl (by simp), (h s none _ hs hstep).2⟩
  | case3 s a t hstep hlt rest u hrest ih =>
      rw [Parser.many, hstep] at hp
      simp only [if_pos hlt, hrest] at hp
      cases hp
      obtain ⟨ha | hend, ht⟩ := h s _ t hs hstep
      · obtain ⟨hall, hu⟩ := ih rest _ ht hrest
        exact ⟨hall.imp_left fun hall => by simpa using ⟨ha a rfl, hall⟩, hu⟩
      · rw [Parser.many, hstop t hend] at hrest
        cases hrest
        exact ⟨.inr hend, ht⟩
  | case4 s a t hstep hlt e u hrest ih =>
      rw [Parser.many, hstep] at hp
      simp only [if_pos hlt, hrest] at hp
      cases hp
  | case5 s a t hstep hlt =>
      rw [Parser.many, hstep] at hp
      simp only [if_neg hlt] at hp
      cases hp
      obtain ⟨ha, ht⟩ := h s _ _ hs hstep
      exact ⟨ha.imp_left fun ha => by simpa using ha, ht⟩

theorem consume_of_atEnd {k : TokenKind} (hk : k ≠ .symbol .semicolon ∧ k ≠ .endOfInput)
    {s : Cursor} (hs : s.AtEnd) : Parser.consume k s = .ok false s := by
  refine consume_eq_false ?_
  rintro rfl
  exact hs.elim hk.1 hk.2

theorem commaSeparated (h : YieldsOrEnds d p P) :
    YieldsOrEnds d (Parser.commaSeparated p) fun as => as ≠ [] ∧ ∀ a ∈ as, P a := by
  have hcomma : ∀ s : Cursor, s.AtEnd → Parser.consumeSymbol .comma s = .ok false s :=
    fun s hs => consume_of_atEnd (by simp) hs
  have hstop : ∀ s : Cursor, s.AtEnd → (do
      if ← Parser.consumeSymbol .comma then
        return some (← p)
      return none : Parser (Option α)) s = .ok none s := by
    intro s hs
    exact bind_eq_ok.mpr ⟨false, s, hcomma s hs, rfl⟩
  have hrest : YieldsOrEnds d (Parser.many do
      if ← Parser.consumeSymbol .comma then
        return some (← p)
      return none) fun as => ∀ a ∈ as, P a := by
    refine many (bind .consume fun found _ => ?_) hstop
    cases found with
    | true => exact h.map (by simp)
    | false => exact of (.pure (by simp))
  intro s as s' hs hp
  obtain ⟨a, u, ha, hmany⟩ := bind_eq_ok.mp hp
  obtain ⟨rest, v, hmany, heq⟩ := bind_eq_ok.mp hmany
  cases heq
  obtain ⟨hP | hend, hu⟩ := h s a u hs ha
  · obtain ⟨hall, hv⟩ := hrest u rest _ hu hmany
    exact ⟨hall.imp_left fun hall => ⟨by simp, by simpa using ⟨hP, hall⟩⟩, hv⟩
  · rw [Parser.many, hstop u hend] at hmany
    cases hmany
    exact ⟨.inr hend, hu⟩

-- The parenthesis that has to follow does not stand at the end of a statement.
theorem inParens {c : Context} {e : Expected} (h : YieldsOrEnds d p P) :
    Yields d (Parser.inParens c e p) P := by
  refine .bind .expectSymbol fun _ _ => fun s a s' hs hp => ?_
  obtain ⟨b, u, hb, hclose⟩ := bind_eq_ok.mp hp
  obtain ⟨x, v, hright, heq⟩ := bind_eq_ok.mp hclose
  cases heq
  obtain ⟨hP | hend, hu⟩ := h s _ u hs hb
  · exact ⟨hP, (Yields.expectSymbol u _ _ hu hright).2⟩
  · obtain ⟨found, w, hfound, hfail⟩ := bind_eq_ok.mp hright
    have hconsume : Parser.consumeSymbol .rightParen u = .ok false u :=
      consume_of_atEnd (by simp) hend
    rw [hconsume] at hfound
    cases hfound
    cases hfail

end YieldsOrEnds

end Parser

end SchemaDiff
