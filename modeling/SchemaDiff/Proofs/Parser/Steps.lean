import SchemaDiff.Parser.Statement
import SchemaDiff.Proofs.Token.Reading

namespace SchemaDiff

namespace Face

def token (f : Face) : Token :=
  ⟨f.kind, f.literal, ⟨0, 0⟩⟩

-- Behind the last token there is the end of the input, again and again.
def first (faces : List Face) : Face :=
  faces.head?.getD ⟨.endOfInput, ""⟩

@[simp] theorem first_cons (f : Face) (faces : List Face) : first (f :: faces) = f := rfl

end Face

namespace Cursor

def faces (s : Cursor) : List Face :=
  s.ahead.map Token.face

theorem face_current (s : Cursor) : s.current.face = Face.first s.faces := by
  unfold current faces
  cases s.ahead <;> rfl

end Cursor

namespace Parser

variable {α β : Type}

theorem bind_eq_ok {p : Parser α} {q : α → Parser β} {s s' : Cursor} {b : β} :
    (p >>= q) s = .ok b s' ↔ ∃ a t, p s = .ok a t ∧ q a t = .ok b s' := by
  show EStateM.bind p q s = .ok b s' ↔ _
  unfold EStateM.bind
  cases hp : p s with
  | ok a t =>
      constructor
      · exact fun h => ⟨a, t, rfl, h⟩
      · rintro ⟨a', t', h, h'⟩
        cases h
        exact h'
  | error e t => simp

theorem current_bind_eq_ok {q : Token → Parser β} {s s' : Cursor} {b : β} :
    (current >>= q) s = .ok b s' ↔ (q s.current).run s = .ok b s' :=
  Iff.rfl

theorem advance_bind_eq_ok {q : Token → Parser β} {s s' : Cursor} {b : β} :
    (advance >>= q) s = .ok b s' ↔ q s.current s.next = .ok b s' :=
  Iff.rfl

theorem bind_eq_error {p : Parser α} {q : α → Parser β} {s s' : Cursor} {e : ParseError} :
    (p >>= q) s = .error e s' ↔
      p s = .error e s' ∨ ∃ a t, p s = .ok a t ∧ q a t = .error e s' := by
  show EStateM.bind p q s = .error e s' ↔ _
  unfold EStateM.bind
  cases hp : p s with
  | ok a t =>
      constructor
      · exact fun h => .inr ⟨a, t, rfl, h⟩
      · rintro (h | ⟨a', t', h, h'⟩)
        · cases h
        · cases h
          exact h'
  | error e' t => simp

theorem consume_eq_true {k : TokenKind} {s : Cursor} (h : s.current.kind = k) :
    consume k s = .ok true s.next :=
  bind_eq_ok.mpr ⟨true, s, congrArg (EStateM.Result.ok · s) (by rw [h, beq_self_eq_true]), rfl⟩

theorem consume_eq_false {k : TokenKind} {s : Cursor} (h : s.current.kind ≠ k) :
    consume k s = .ok false s :=
  bind_eq_ok.mpr ⟨false, s, congrArg (EStateM.Result.ok · s) (beq_false_of_ne h), rfl⟩

-- On these tokens the parser succeeds and leaves those. Places in the text play no part.
def Steps (p : Parser α) (faces : List Face) (a : α) (rest : List Face) : Prop :=
  ∀ s : Cursor, s.faces = faces → ∃ s', p s = .ok a s' ∧ s'.faces = rest

namespace Steps

variable {p : Parser α} {q : α → Parser β} {a : α} {b : β} {X Y Z : List Face} {f : Face}

theorem pure (a : α) (X : List Face) : Steps (pure a) X a X :=
  fun s hs => ⟨s, rfl, hs⟩

theorem bind (h : Steps p X a Y) (h' : Steps (q a) Y b Z) : Steps (p >>= q) X b Z := by
  intro s hs
  obtain ⟨t, hp, ht⟩ := h s hs
  obtain ⟨u, hq, hu⟩ := h' t ht
  exact ⟨u, bind_eq_ok.mpr ⟨a, t, hp, hq⟩, hu⟩

theorem current {q : Token → Parser β}
    (h : ∀ t : Token, t.face = Face.first X → Steps (q t) X b Z) :
    Steps (Parser.current >>= q) X b Z := by
  intro s hs
  obtain ⟨u, hq, hu⟩ := h s.current (by rw [s.face_current, hs]) s hs
  exact ⟨u, hq, hu⟩

theorem peek? {q : Option Token → Parser β}
    (h : ∀ next : Option Token, next.map Token.face = X.tail.head? → Steps (q next) X b Z) :
    Steps (Parser.peek? >>= q) X b Z := by
  intro s hs
  have hnext : s.ahead.tail.head?.map Token.face = X.tail.head? := by
    rw [← hs, Cursor.faces, ← List.map_tail, List.head?_map]
  obtain ⟨u, hq, hu⟩ := h _ hnext s hs
  exact ⟨u, hq, hu⟩

theorem advance {q : Token → Parser β} (h : ∀ t : Token, t.face = f → Steps (q t) X b Z) :
    Steps (Parser.advance >>= q) (f :: X) b Z := by
  intro s hs
  have hf : s.current.face = f := by rw [s.face_current, hs, Face.first_cons]
  obtain ⟨u, hq, hu⟩ := h s.current hf s.next (by
    have htail : s.next.faces = s.faces.tail := by simp [Cursor.next, Cursor.faces]
    rw [htail, hs, List.tail_cons])
  exact ⟨u, hq, hu⟩

theorem check (k : TokenKind) :
    Steps (Parser.check k) X ((Face.first X).kind == k) X :=
  current fun t ht => by
    have hk : t.kind = (Face.first X).kind := congrArg Face.kind ht
    rw [← hk]
    exact pure _ X

theorem checkWord {word : String} :
    Steps (Parser.checkWord word) X ((Face.first X).token.isWord word) X :=
  current fun t ht => by
    have hw : t.isWord word = (Face.first X).token.isWord word := by
      rw [← ht]
      rfl
    rw [← hw]
    exact pure _ X

theorem consume_true {k : TokenKind} (h : f.kind = k) : Steps (consume k) (f :: X) true X := by
  refine bind (check k) ?_
  rw [Face.first_cons, h, beq_self_eq_true, if_pos rfl]
  exact advance fun _ _ => pure true X

theorem consume_false {k : TokenKind} (h : (Face.first X).kind ≠ k) :
    Steps (consume k) X false X := by
  refine bind (check k) ?_
  rw [beq_false_of_ne h]
  exact pure false X

theorem expectSymbol {s : Symbol} {e : Expected} {c : Context} (h : f.kind = .symbol s) :
    Steps (Parser.expectSymbol s e c) (f :: X) () X :=
  bind (consume_true h) (pure () X)

theorem expectKeyword {k : Keyword} {c : Context} (h : f.kind = .keyword k) :
    Steps (Parser.expectKeyword k c) (f :: X) () X :=
  bind (consume_true h) (pure () X)

theorem expectWord {word : String} {c : Context} (h : f.token.isWord word = true) :
    Steps (Parser.expectWord word c) (f :: X) () X := by
  refine bind checkWord ?_
  rw [Face.first_cons, h, if_pos rfl]
  exact advance fun _ _ => pure () X

theorem inParens {c : Context} {e : Expected} {l r : Face} (hl : l.kind = .symbol .leftParen)
    (hr : r.kind = .symbol .rightParen) (h : Steps p X a (r :: Y)) :
    Steps (Parser.inParens c e p) (l :: X) a Y :=
  bind (expectSymbol hl) (bind h (bind (expectSymbol hr) (pure a Y)))

theorem many_nil {step : Parser (Option α)} (h : Steps step X none Y) :
    Steps (many step) X [] Y := by
  intro s hs
  obtain ⟨t, hp, ht⟩ := h s hs
  exact ⟨t, by rw [many, hp], ht⟩

theorem many_cons {step : Parser (Option α)} {as : List α} (h : Steps step X (some a) Y)
    (hlength : Y.length < X.length) (h' : Steps (many step) Y as Z) :
    Steps (many step) X (a :: as) Z := by
  intro s hs
  obtain ⟨t, hp, ht⟩ := h s hs
  obtain ⟨u, hq, hu⟩ := h' t ht
  have hlt : t.ahead.length < s.ahead.length := by
    rw [← hs, ← ht] at hlength
    simpa [Cursor.faces] using hlength
  refine ⟨u, ?_, hu⟩
  rw [many, hp]
  simp only [if_pos hlt, hq]

-- `follow` is what may stand behind an item.
theorem many_map {ι : Type} {step : Parser (Option α)} {items : List ι} {tokens : ι → List Face}
    {value : ι → α} (follow : List Face → Prop)
    (hstep : ∀ i ∈ items, ∀ Y, follow Y → Steps step (tokens i ++ Y) (some (value i)) Y)
    (hne : ∀ i ∈ items, tokens i ≠ []) (hfollow : ∀ i ∈ items, ∀ Y, follow (tokens i ++ Y))
    (hend : Steps step Z none Z) (hZ : follow Z) :
    Steps (Parser.many step) (items.flatMap tokens ++ Z) (items.map value) Z := by
  induction items with
  | nil => exact many_nil hend
  | cons i items ih =>
      have hrest := ih (fun j hj => hstep j (by simp [hj])) (fun j hj => hne j (by simp [hj]))
        fun j hj => hfollow j (by simp [hj])
      have hbehind : follow (items.flatMap tokens ++ Z) := by
        cases items with
        | nil => exact hZ
        | cons j items =>
            rw [List.flatMap_cons, List.append_assoc]
            exact hfollow j (by simp) _
      rw [List.flatMap_cons, List.append_assoc]
      refine many_cons (hstep i (by simp) _ hbehind) ?_ hrest
      have hpos := List.length_pos_iff.mpr (hne i (by simp))
      simp only [List.length_append]
      omega

-- The values tell by themselves how they are written.
theorem many {step : Parser (Option α)} {as : List α} {tokens : α → List Face}
    (follow : List Face → Prop)
    (hstep : ∀ a ∈ as, ∀ Y, follow Y → Steps step (tokens a ++ Y) (some a) Y)
    (hne : ∀ a ∈ as, tokens a ≠ []) (hfollow : ∀ a ∈ as, ∀ Y, follow (tokens a ++ Y))
    (hend : Steps step Z none Z) (hZ : follow Z) :
    Steps (Parser.many step) (as.flatMap tokens ++ Z) as Z := by
  have hall : Steps (Parser.many step) (as.flatMap tokens ++ Z) (as.map id) Z :=
    many_map follow hstep hne hfollow hend hZ
  rwa [List.map_id] at hall

end Steps

-- On these tokens the parser fails.
def Fails (p : Parser α) (faces : List Face) : Prop :=
  ∀ s : Cursor, s.faces = faces → ∃ e s', p s = .error e s'

namespace Fails

variable {p : Parser α} {q : α → Parser β} {a : α} {X Y : List Face}

theorem bind (h : Fails p X) : Fails (p >>= q) X := by
  intro s hs
  obtain ⟨e, s', hp⟩ := h s hs
  exact ⟨e, s', bind_eq_error.mpr (.inl hp)⟩

theorem behind (h : Steps p X a Y) (h' : Fails (q a) Y) : Fails (p >>= q) X := by
  intro s hs
  obtain ⟨t, hp, ht⟩ := h s hs
  obtain ⟨e, s', hq⟩ := h' t ht
  exact ⟨e, s', bind_eq_error.mpr (.inr ⟨a, t, hp, hq⟩)⟩

theorem current {q : Token → Parser β}
    (h : ∀ t : Token, t.face = Face.first X → Fails (q t) X) : Fails (Parser.current >>= q) X := by
  intro s hs
  obtain ⟨e, s', hq⟩ := h s.current (by rw [s.face_current, hs]) s hs
  exact ⟨e, s', hq⟩

theorem expectKeyword {k : Keyword} {c : Context} (h : (Face.first X).kind ≠ .keyword k) :
    Fails (Parser.expectKeyword k c) X :=
  behind (.consume_false h) fun s _ => ⟨_, s, rfl⟩

theorem many {step : Parser (Option α)} (h : Fails step X) : Fails (many step) X := by
  intro s hs
  obtain ⟨e, s', hp⟩ := h s hs
  exact ⟨e, s', by rw [Parser.many, hp]⟩

theorem many_cons {step : Parser (Option α)} (h : Steps step X (some a) Y)
    (hlength : Y.length < X.length) (h' : Fails (Parser.many step) Y) :
    Fails (Parser.many step) X := by
  intro s hs
  obtain ⟨t, hp, ht⟩ := h s hs
  obtain ⟨e, s', hq⟩ := h' t ht
  have hlt : t.ahead.length < s.ahead.length := by
    rw [← hs, ← ht] at hlength
    simpa [Cursor.faces] using hlength
  refine ⟨e, s', ?_⟩
  rw [Parser.many, hp]
  simp only [if_pos hlt, hq]

end Fails

end Parser

namespace Face

-- The tokens of items with commas between them.
def separated {α : Type} (tokens : α → List Face) : List α → List Face
  | [] => []
  | a :: rest => tokens a ++ rest.flatMap fun b => ⟨.symbol .comma, ","⟩ :: tokens b

end Face

namespace Parser

theorem Steps.commaSeparated {α : Type} {item : Parser α} {as : List α} {tokens : α → List Face}
    {Z : List Face} (follow : List Face → Prop) (has : as ≠ [])
    (hitem : ∀ a ∈ as, ∀ Y, follow Y → Steps item (tokens a ++ Y) a Y)
    (hcomma : ∀ Y, follow (⟨.symbol .comma, ","⟩ :: Y)) (hZ : follow Z)
    (hend : (Face.first Z).kind ≠ .symbol .comma) :
    Steps (Parser.commaSeparated item) (Face.separated tokens as ++ Z) as Z := by
  cases as with
  | nil => exact absurd rfl has
  | cons a as =>
      have hbehind : follow ((as.flatMap fun b => ⟨.symbol .comma, ","⟩ :: tokens b) ++ Z) := by
        cases as with
        | nil => exact hZ
        | cons b as => exact hcomma _
      rw [Face.separated, List.append_assoc]
      refine .bind (hitem a (by simp) _ hbehind) (.bind ?_ (.pure _ _))
      refine .many follow (fun b hb Y hY => ?_) (by simp) (fun b _ Y => hcomma _) ?_ hZ
      · exact .bind (.consume_true rfl) (.bind (hitem b (by simp [hb]) Y hY) (.pure _ _))
      · exact .bind (.consume_false hend) (.pure _ _)

-- An item of a list behind the first one.
def commaItem? {α : Type} (item : Parser α) : Parser (Option α) := do
  if ← consumeSymbol .comma then
    return some (← item)
  return none

theorem Steps.commaItem? {α : Type} {item : Parser α} {a : α} {f : Face} {X Y : List Face}
    (hf : f.kind = .symbol .comma) (h : Steps item X a Y) :
    Steps (Parser.commaItem? item) (f :: X) (some a) Y :=
  .bind (.consume_true hf) (.bind h (.pure _ Y))

theorem Steps.commaSeparated_one {α : Type} {item : Parser α} {a : α} {X Y : List Face}
    (h : Steps item X a Y) (hend : (Face.first Y).kind ≠ .symbol .comma) :
    Steps (Parser.commaSeparated item) X [a] Y :=
  .bind h (.bind (.many_nil (.bind (.consume_false hend) (.pure none Y))) (.pure [a] Y))

theorem Steps.withQuoteHint {α : Type} {p : Parser α} {a : α} {X Y : List Face} (word : String)
    (h : Steps p X a Y) : Steps (Parser.withQuoteHint word p) X a Y := by
  intro s hs
  obtain ⟨u, hu, hfaces⟩ := h s hs
  exact ⟨u, by rw [Parser.withQuoteHint, hu], hfaces⟩

end Parser

namespace Script

-- A text is read statement by statement.
theorem parse_eq (d : Dialect) (text : String) : parse d text =
    match Parser.many (Parser.statements? d) (.ofText d text) with
    | .ok all _ => .ok all.flatten
    | .error e _ => .error e := by
  cases hall : Parser.many (Parser.statements? d) (.ofText d text) with
  | ok all u =>
      have hscript : Parser.script d (.ofText d text) = .ok all.flatten u :=
        Parser.bind_eq_ok.mpr ⟨all, u, hall, rfl⟩
      rw [parse, hscript]
  | error e u =>
      have hscript : Parser.script d (.ofText d text) = .error e u := by
        show EStateM.bind (Parser.many (Parser.statements? d)) _ (.ofText d text) = _
        unfold EStateM.bind
        rw [hall]
      rw [parse, hscript]

end Script

end SchemaDiff
