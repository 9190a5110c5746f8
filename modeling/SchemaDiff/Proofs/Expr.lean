import SchemaDiff.Proofs.Expr.Reading
import SchemaDiff.Proofs.Ident

namespace SchemaDiff

open SchemaDiff.Parser

variable {d : Dialect}

namespace Expr

def raws (e : Expr) : List String :=
  e.tokens.map Ident.raw

def faces (d : Dialect) (e : Expr) : List Face :=
  e.tokens.map (Ident.face d)

def kinds (d : Dialect) (e : Expr) : List TokenKind :=
  (e.faces d).map Face.kind

-- The expression can be read again from its text, behind which the brackets are closed.
structure Readable (d : Dialect) (place : ExprPlace) (e : Expr) : Prop where
  ne_nil : e.tokens ≠ []
  genuine : ∀ i ∈ e.tokens, (i.face d).Genuine d ∧ exprToken (i.face d).token = i
  inside : Inside place 0 true (e.kinds d)
  closed : place ≠ .statement → depthBehind (e.kinds d) 0 = 0

-- No two tokens become one when no blank is printed between them.
def Spaced (d : Dialect) (e : Expr) : Prop :=
  (e.tokens.map Ident.raw).IsChain (Apart d)

instance (d : Dialect) : DecidablePred (Spaced d) :=
  fun e => inferInstanceAs (Decidable ((e.tokens.map Ident.raw).IsChain (Apart d)))

-- The end of the expression is found again behind its text.
structure Bounded (d : Dialect) (place : ExprPlace) (e : Expr) : Prop where
  ne_nil : e.tokens ≠ []
  genuine : ∀ i ∈ e.tokens, (i.face d).Genuine d
  inside : Inside place 0 true (e.kinds d)
  closed : place ≠ .statement → depthBehind (e.kinds d) 0 = 0

-- What holds of an expression however it ended: its brackets may have been left open.
structure Gathered (d : Dialect) (place : ExprPlace) (e : Expr) : Prop where
  ne_nil : e.tokens ≠ []
  genuine : ∀ i ∈ e.tokens, (i.face d).Genuine d ∧ exprToken (i.face d).token = i
  inside : Inside place 0 true (e.kinds d)

-- What the tokens of the expression are kept as when they are read.
def reread (d : Dialect) (e : Expr) : Expr :=
  exprOf ((e.faces d).map Face.token)

variable {place : ExprPlace} {e : Expr}

theorem Readable.bounded (h : e.Readable d place) : e.Bounded d place :=
  ⟨h.ne_nil, fun i hi => (h.genuine i hi).1, h.inside, h.closed⟩

theorem Readable.gathered (h : e.Readable d place) : e.Gathered d place :=
  ⟨h.ne_nil, h.genuine, h.inside⟩

theorem Readable.reread_eq (h : e.Readable d place) : e.reread d = e := by
  have htokens : ((e.faces d).map Face.token).map exprToken = e.tokens := by
    rw [faces, List.map_map, List.map_map]
    conv_rhs => rw [← List.map_id e.tokens]
    exact List.map_congr_left fun i hi => (h.genuine i hi).2
  rw [reread, exprOf, htokens]

theorem Bounded.prints (h : e.Bounded d place) (hs : e.Spaced d) :
    Prints d e.sql (e.faces d) := by
  have hp := prints_join hs fun token ht => by
    obtain ⟨i, hi, rfl⟩ := List.mem_map.mp ht
    exact h.genuine i hi
  rwa [List.map_map] at hp

theorem Readable.prints (h : e.Readable d place) (hs : e.Spaced d) :
    Prints d e.sql (e.faces d) :=
  h.bounded.prints hs

end Expr

namespace Parser

-- A keyword is read from its word.
theorem keyword?_literal {t : Token} {k : Keyword} (h : t.face.Genuine d)
    (hk : t.kind = .keyword k) : d.keyword? t.literal = some k := by
  have hkind := (Token.isWord_of_genuine h (by rw [Token.face, hk]; rfl)).2
  rw [Token.face, hk, Token.wordKind] at hkind
  dsimp only at hkind
  split at hkind
  · rename_i k' hk'
    cases hkind
    exact hk'
  · cases hkind

theorem keyword?_of_genuine {t : Token} {k : Keyword} (h : t.face.Genuine d)
    (hk : t.kind = .keyword k) : d.keyword? k.text = some k := by
  have hword := keyword?_literal h hk
  simp only [Dialect.keyword?, Option.filter_eq_some_iff, Face.ofWord?_text] at hword ⊢
  exact ⟨trivial, hword.2⟩

theorem exprKeyword?_eq {text word : String} (h : Expr.keyword? text = some word) :
    word = Text.upper text := by
  simpa using List.find?_some h

-- A token that was collected reads as itself, although keywords changed their letter case.
theorem exprToken_face {t : Token} (h : t.face.Genuine d) :
    ((exprToken t).face d).Genuine d ∧ ((exprToken t).face d).kind = t.kind ∧
      exprToken ((exprToken t).face d).token = exprToken t := by
  have hsame : ∀ i : Ident, i.raw = t.literal → exprToken t = i →
      ((exprToken t).face d).Genuine d ∧ ((exprToken t).face d).kind = t.kind ∧
        exprToken ((exprToken t).face d).token = exprToken t := by
    intro i hraw hi
    have hface : (exprToken t).face d = t.face := by
      rw [hi, Ident.face, hraw]
      exact h.read_eq
    rw [hface]
    exact ⟨h, rfl, rfl⟩
  cases hk : t.kind with
  | keyword k =>
      have htoken : exprToken t = .bare k.text := by simp [exprToken, hk]
      have hg := Face.genuine_keyword (keyword?_of_genuine h hk)
      have hface : (exprToken t).face d = Face.keyword k := by
        rw [htoken]
        exact hg.read_eq
      rw [hface, htoken]
      exact ⟨hg, rfl, rfl⟩
  | identifier =>
      obtain ⟨hword, hkind⟩ := Token.isWord_of_genuine h (by rw [Token.face, hk]; rfl)
      cases hx : Expr.keyword? t.literal with
      | none => exact hk ▸ hsame (.bare t.literal) rfl (by simp [exprToken, hk, hx])
      | some word =>
          obtain rfl := exprKeyword?_eq hx
          have htoken : exprToken t = .bare (Text.upper t.literal) := by simp [exprToken, hk, hx]
          have hupper : Token.wordKind d (Text.upper t.literal) = .identifier := by
            rw [Token.wordKind_upper]
            exact hkind.symm.trans hk
          have hg : Face.Genuine d ⟨Token.wordKind d (Text.upper t.literal),
              Text.upper t.literal⟩ := Token.genuine_of_isWord hword.upper
          rw [hupper] at hg
          have hface : (exprToken t).face d = ⟨.identifier, Text.upper t.literal⟩ := by
            rw [htoken]
            exact hg.read_eq
          have hagain : Expr.keyword? (Text.upper t.literal) = some (Text.upper t.literal) := by
            simpa [Expr.keyword?, Text.upper_upper] using hx
          rw [hface, htoken]
          exact ⟨hg, rfl, by simp [exprToken, Face.token, hagain]⟩
  | quotedIdentifier q => exact hk ▸ hsame _ rfl (by simp [exprToken, hk]; rfl)
  | _ => exact hk ▸ hsame (.bare t.literal) rfl (by simp [exprToken, hk])

theorem Inside.ne {place : ExprPlace} {depth : Nat} {isFirst : Bool} {kinds : List TokenKind}
    (h : Inside place depth isFirst kinds) :
    ∀ k ∈ kinds, k ≠ .endOfInput ∧ k ≠ .illegal := by
  induction kinds generalizing depth isFirst with
  | nil => simp
  | cons k kinds ih =>
      intro x hx
      rcases List.mem_cons.mp hx with rfl | hx
      · constructor
        · rintro rfl
          exact absurd h.1 (by simp [stopAt?, kindToken])
        · rintro rfl
          exact absurd h.1 (by simp [stopAt?, kindToken])
      · exact ih h.2 x hx

theorem depth_of_stops {place : ExprPlace} {depth : Nat} {s : Cursor}
    (h : Stops place depth false (s.ahead.map Token.kind) .complete) :
    depth = 0 ∨ place ≠ .parens ∧ s.AtEnd := by
  unfold Cursor.AtEnd Cursor.current
  cases hs : s.ahead with
  | nil =>
      rw [hs] at h
      refine .inr ⟨?_, .inr rfl⟩
      rintro rfl
      cases h
  | cons t rest =>
      rw [hs] at h
      have h : stopAt? place depth false (kindToken t.kind) _ = some .complete := h
      unfold stopAt? kindToken at h
      dsimp only at h ⊢
      split at h
      · rename_i hk
        refine .inr ⟨?_, .inr hk⟩
        rintro rfl
        simp at h
      · rename_i hk
        refine .inr ⟨?_, .inl hk⟩
        rintro rfl
        simp at h
      · simp at h
      · split at h
        · rename_i hd
          exact .inl hd
        · cases h
      · split at h
        · rename_i hd
          exact .inl hd.1
        · cases h
      · split at h <;> simp at h
      · split at h <;> simp at h
      · split at h
        · rename_i hd
          exact .inl hd.1
        · cases h
      · cases h

theorem exprBody_eq_ok {place : ExprPlace} {c : Context} {s s' : Cursor} {body : List Token}
    (h : exprBody place c s = .ok body s') :
    s.ahead = body ++ s'.ahead ∧ body ≠ [] ∧ Inside place 0 true (body.map Token.kind) ∧
      Stops place (depthBehind (body.map Token.kind) 0) false (s'.ahead.map Token.kind)
        .complete := by
  obtain ⟨hsplit, hinside, hstops⟩ := splitExpr_source place 0 true s.ahead
  unfold exprBody at h
  dsimp only at h
  split at h
  · rename_i hstop
    split at h
    · cases h
    · rename_i hne
      cases h
      rw [hstop] at hstops
      refine ⟨hsplit, by simpa using hne, hinside, ?_⟩
      simpa [hne] using hstops
  · cases h
  · cases h
  · cases h

theorem kinds_exprOf {body : List Token} (h : ∀ t ∈ body, t.face.Genuine d) :
    (exprOf body).kinds d = body.map Token.kind := by
  simp only [Expr.kinds, Expr.faces, exprOf, List.map_map]
  exact List.map_congr_left fun t ht => (exprToken_face (h t ht)).2.1

theorem genuine_of_exprBody {place : ExprPlace} {c : Context} {s s' : Cursor} {body : List Token}
    (hs : s.Scanned d) (h : exprBody place c s = .ok body s') : ∀ t ∈ body, t.face.Genuine d := by
  obtain ⟨hsplit, -, hinside, -⟩ := exprBody_eq_ok h
  intro t ht
  obtain ⟨he, hi⟩ := hinside.ne t.kind (List.mem_map_of_mem ht)
  exact hs t (by simp [hsplit, ht]) he hi

theorem gathered_exprOf {place : ExprPlace} {c : Context} {s s' : Cursor} {body : List Token}
    (hs : s.Scanned d) (h : exprBody place c s = .ok body s') :
    s'.Scanned d ∧ (exprOf body).Gathered d place := by
  obtain ⟨hsplit, hne, hinside, -⟩ := exprBody_eq_ok h
  have hgenuine := genuine_of_exprBody hs h
  refine ⟨hs.of_subset fun t ht => by simp [hsplit, ht], by simpa [exprOf] using hne, ?_, ?_⟩
  · intro i hi
    obtain ⟨t, ht, rfl⟩ := List.mem_map.mp hi
    obtain ⟨hg, -, hagain⟩ := exprToken_face (hgenuine t ht)
    exact ⟨hg, hagain⟩
  · rwa [kinds_exprOf hgenuine]

-- An expression is read again, unless the end of the statement cut it off.
theorem readable_exprOf {place : ExprPlace} {c : Context} {s s' : Cursor} {body : List Token}
    (hs : s.Scanned d) (h : exprBody place c s = .ok body s') :
    s'.Scanned d ∧ ((exprOf body).Readable d place ∨ place = .columnDefault ∧ s'.AtEnd) := by
  obtain ⟨hscanned, hgathered⟩ := gathered_exprOf hs h
  obtain ⟨-, -, -, hstops⟩ := exprBody_eq_ok h
  refine ⟨hscanned, ?_⟩
  have hreadable : (place ≠ .statement → depthBehind (body.map Token.kind) 0 = 0) →
      (exprOf body).Readable d place := by
    intro hclosed
    refine ⟨hgathered.ne_nil, hgathered.genuine, hgathered.inside, ?_⟩
    rwa [kinds_exprOf (genuine_of_exprBody hs h)]
  rcases depth_of_stops hstops with hdepth | ⟨hparens, hend⟩
  · exact .inl (hreadable fun _ => hdepth)
  · cases place with
    | columnDefault => exact .inr ⟨rfl, hend⟩
    | statement => exact .inl (hreadable fun hne => absurd rfl hne)
    | parens => exact absurd rfl hparens

-- What ends an expression where it is printed.
def Ending (place : ExprPlace) (Y : List Face) : Prop :=
  match place with
  | .columnDefault => (Face.first Y).kind ∈ [TokenKind.symbol .comma, .symbol .rightParen,
      .symbol .semicolon, .keyword .autoIncrement]
  | .statement => (Face.first Y).kind = .symbol .semicolon
  | .parens => (Face.first Y).kind = .symbol .rightParen

theorem Ending.ne_null {place : ExprPlace} {Y : List Face} (h : Ending place Y) :
    (Face.first Y).kind ≠ .keyword .null := by
  intro hn
  unfold Ending at h
  rw [hn] at h
  cases place <;> simp at h

theorem Ending.stops {place : ExprPlace} {depth : Nat} {t : Token} {rest : List Token}
    (h : Ending place ((t :: rest).map Token.face)) (hd : place ≠ .statement → depth = 0) :
    Stops place depth false ((t :: rest).map Token.kind) .complete := by
  show stopAt? place depth false (kindToken t.kind) _ = some .complete
  cases place with
  | columnDefault =>
      obtain rfl := hd (by decide)
      have h : t.kind ∈ [TokenKind.symbol .comma, .symbol .rightParen, .symbol .semicolon,
        .keyword .autoIncrement] := h
      simp only [List.mem_cons, List.not_mem_nil, or_false] at h
      rcases h with h | h | h | h <;> rw [h] <;> rfl
  | statement =>
      have h : t.kind = _ := h
      rw [h]
      rfl
  | parens =>
      obtain rfl := hd (by decide)
      have h : t.kind = _ := h
      rw [h]
      rfl

-- What is collected where an expression was printed.
theorem exprBody_again {place : ExprPlace} {e : Expr} (h : e.Bounded d place) (c : Context)
    {Y : List Face} (hY : Ending place Y) {s : Cursor} (hs : s.faces = e.faces d ++ Y) :
    ∃ body s', exprBody place c s = .ok body s' ∧ exprOf body = e.reread d ∧ s'.faces = Y := by
  obtain ⟨body, rest, hsplit, hbody, hrest⟩ := List.map_eq_append_iff.mp hs
  have hkinds : body.map Token.kind = e.kinds d := by
    rw [Expr.kinds, ← hbody, List.map_map]
    rfl
  have hexpr : exprOf body = e.reread d := by
    rw [Expr.reread, ← hbody, exprOf, exprOf, List.map_map, List.map_map]
    rfl
  have hne : body ≠ [] := by
    rintro rfl
    exact h.ne_nil (by simpa [Expr.faces] using hbody.symm)
  have heq : splitExpr place 0 true s.ahead = ⟨body, rest, .complete⟩ := by
    rw [hsplit]
    cases rest with
    | nil =>
        subst hrest
        cases place <;> simp [Ending, Face.first] at hY
    | cons t rest =>
        rw [← hrest] at hY
        refine splitExpr_eq (hkinds ▸ h.inside) (fun n hn => ?_) ?_
        · obtain rfl : t = n := by simpa using hn
          exact hY.ne_null
        · have hnil : (true && body.isEmpty) = false := by simpa using hne
          rw [hnil, hkinds]
          exact hY.stops h.closed
  refine ⟨body, { s with ahead := rest }, ?_, hexpr, hrest⟩
  have hempty : body.isEmpty = false := by simpa using hne
  simp only [exprBody, heq, hempty, Bool.false_eq_true, if_false]

theorem steps_bounded {place : ExprPlace} {e : Expr} (h : e.Bounded d place) (c : Context)
    {Y : List Face} (hY : Ending place Y) :
    Steps (expr place c) (e.faces d ++ Y) (e.reread d) Y := by
  intro s hs
  obtain ⟨body, s', hbody, hexpr, hs'⟩ := exprBody_again h c hY hs
  exact ⟨s', bind_eq_ok.mpr ⟨body, s', hbody, congrArg (EStateM.Result.ok · s') hexpr⟩, hs'⟩

theorem steps_expr {place : ExprPlace} {e : Expr} (h : e.Readable d place) (c : Context)
    {Y : List Face} (hY : Ending place Y) : Steps (expr place c) (e.faces d ++ Y) e Y := by
  have hsteps := steps_bounded h.bounded c hY
  rwa [h.reread_eq] at hsteps

theorem yields_expr_statement {c : Context} :
    Yields d (expr .statement c) (·.Readable d .statement) := by
  intro s e s' hs h
  obtain ⟨body, t, hbody, he⟩ := bind_eq_ok.mp h
  cases he
  obtain ⟨hscanned, hreadable | ⟨hplace, -⟩⟩ := readable_exprOf hs hbody
  · exact ⟨hreadable, hscanned⟩
  · cases hplace

theorem yields_checkBody :
    Yields d checkBody fun body => (exprOf body).Readable d .parens := by
  refine .inParens fun s body s' hs h => ?_
  obtain ⟨hscanned, hreadable | ⟨hplace, -⟩⟩ := readable_exprOf hs h
  · exact ⟨hreadable, hscanned⟩
  · cases hplace

theorem steps_checkBody {β : Type} {e : Expr} (h : e.Readable d .parens)
    {q : List Token → Parser β} {b : β} {Y Z : List Face}
    (hq : ∀ body, exprOf body = e → Steps (q body) Y b Z) :
    Steps (checkBody >>= q)
      (.symbol .leftParen :: (e.faces d ++ .symbol .rightParen :: Y)) b Z := by
  intro s hs
  have hopen : Steps (expectSymbol .leftParen .openParen .checkConstraint)
      (.symbol .leftParen :: (e.faces d ++ .symbol .rightParen :: Y)) ()
      (e.faces d ++ .symbol .rightParen :: Y) := .expectSymbol rfl
  have hclose : Steps (expectSymbol .rightParen .closeParen .checkConstraint)
      (.symbol .rightParen :: Y) () Y := .expectSymbol rfl
  obtain ⟨s₁, h₁, hs₁⟩ := hopen s hs
  have hend : Ending .parens (Face.symbol .rightParen :: Y) := rfl
  obtain ⟨body, s₂, h₂, hbody, hs₂⟩ := exprBody_again h.bounded .checkConstraint hend hs₁
  rw [h.reread_eq] at hbody
  obtain ⟨s₃, h₃, hs₃⟩ := hclose s₂ hs₂
  obtain ⟨s₄, h₄, hs₄⟩ := hq body hbody s₃ hs₃
  have hcheck : checkBody s = .ok body s₃ :=
    bind_eq_ok.mpr ⟨(), s₁, h₁, bind_eq_ok.mpr ⟨body, s₂, h₂,
      bind_eq_ok.mpr ⟨(), s₃, h₃, rfl⟩⟩⟩
  exact ⟨s₄, bind_eq_ok.mpr ⟨body, s₃, hcheck, h₄⟩, hs₄⟩

end Parser

end SchemaDiff
