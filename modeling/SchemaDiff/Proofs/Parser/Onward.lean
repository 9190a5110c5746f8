import SchemaDiff.Proofs.Expr.Reading
import SchemaDiff.Proofs.Parser.Productions
import SchemaDiff.Proofs.Token.Places

namespace SchemaDiff

-- The tokens in front of the second cursor are of these kinds.
structure Cursor.Reads (s : Cursor) (kinds : List TokenKind) (u : Cursor) : Prop where
  tokens : ∃ ts, s.ahead = ts ++ u.ahead ∧ ts.map Token.kind = kinds
  stop : u.stop = s.stop

namespace Cursor.Reads

variable {s t u : Cursor} {kinds kinds' : List TokenKind} {k : TokenKind}

theorem trans (h : s.Reads kinds t) (h' : t.Reads kinds' u) : s.Reads (kinds ++ kinds') u := by
  obtain ⟨ts, hs, rfl⟩ := h.tokens
  obtain ⟨ts', ht, rfl⟩ := h'.tokens
  exact ⟨⟨ts ++ ts', by rw [hs, ht, List.append_assoc], List.map_append⟩, h'.stop.trans h.stop⟩

theorem leadsTo (h : s.Reads kinds u) : s.LeadsTo u := by
  obtain ⟨ts, hs, -⟩ := h.tokens
  exact ⟨⟨ts, hs.symm⟩, h.stop⟩

theorem next (hk : s.current.kind = k) (hend : k ≠ .endOfInput) : s.Reads [k] s.next := by
  obtain ⟨ahead, stop⟩ := s
  cases ahead with
  | nil => exact absurd hk.symm hend
  | cons t rest => exact ⟨⟨[t], rfl, congrArg (fun k => [k]) hk⟩, rfl⟩

theorem of_keyword {k : Keyword} (hk : s.current.keyword? = some k) : s.Reads [.keyword k] s.next :=
  .next (Token.kind_of_keyword? hk) (by simp)

end Cursor.Reads

namespace Parser

-- The tokens that an expression stands behind, with the place that decides where it ends.
inductive OpensExpr : List TokenKind → ExprPlace → Context → Prop
  | default : OpensExpr [.keyword .default] .columnDefault .defaultExpression
  | setDefault : OpensExpr [.keyword .set, .keyword .default] .statement .setDefault
  | predicate : OpensExpr [.keyword .whereWord] .statement .indexPredicate
  | check : OpensExpr [.keyword .check, .symbol .leftParen] .parens .checkConstraint

inductive OpensModify : List TokenKind → Prop
  | bare : OpensModify [.keyword .modify]
  | column : OpensModify [.keyword .modify, .keyword .column]

-- What errors are made of: the cursor they are raised at, and the cursor they leave behind.
inductive Raised (d : Dialect) (o : Cursor) : ParseError → Cursor → Prop
  | mismatch (expected : Expected) (hint : Option String) (c : Context) :
      Raised d o ⟨.unexpected expected o.current hint, c⟩ o
  | tooDeep {kinds : List TokenKind} {place : ExprPlace} {c : Context} {v u : Cursor} {bracket : Span}
      (hopens : OpensExpr kinds place c) (hreads : o.Reads kinds v)
      (hbody : exprBody place c v = .error ⟨.nestingTooDeep bracket, c⟩ u) :
      Raised d o ⟨.nestingTooDeep bracket, c⟩ u
  | refused {kinds : List TokenKind} {table : ObjectName} {v u : Cursor}
      {definition : ColumnDefinition} (hopens : OpensModify kinds) (hreads : o.Reads kinds v)
      (hdefinition : columnDefinition d table v = .ok definition u)
      (hconstraints : definition.constraints ≠ []) :
      Raised d o ⟨.constraintOnModify v.current.span, .alterTableAction⟩ u

theorem leadsTo_splitExpr (place : ExprPlace) (s : Cursor) :
    s.LeadsTo { s with ahead := (splitExpr place 0 true s.ahead).rest } :=
  ⟨⟨_, (splitExpr_source place 0 true s.ahead).1.symm⟩, rfl⟩

-- A body fails where its tokens end, and complains about the token there.
theorem exprBody_eq_error {place : ExprPlace} {c : Context} {s u : Cursor} {e : ParseError}
    (h : exprBody place c s = .error e u) : s.LeadsTo u ∧
      ((∃ expected, e = ⟨.unexpected expected u.current none, c⟩) ∨
        e = ⟨.nestingTooDeep u.current.span, c⟩) := by
  unfold exprBody at h
  dsimp only at h
  split at h
  · split at h <;> cases h
    exact ⟨leadsTo_splitExpr place s, .inl ⟨_, rfl⟩⟩
  · cases h
    exact ⟨leadsTo_splitExpr place s, .inl ⟨_, rfl⟩⟩
  · cases h
    exact ⟨leadsTo_splitExpr place s, .inl ⟨_, rfl⟩⟩
  · cases h
    exact ⟨leadsTo_splitExpr place s, .inr rfl⟩

-- The parser puts no token back, and if it fails behind `o`, it does so for one of the reasons above.
structure OnwardFrom {α : Type} (d : Dialect) (o : Cursor) (p : Parser α) (s : Cursor) : Prop where
  ok : ∀ {a u}, p s = .ok a u → s.LeadsTo u
  error : ∀ {e u}, p s = .error e u → ∃ v, o.LeadsTo v ∧ Raised d v e u

def Onward {α : Type} (d : Dialect) (p : Parser α) : Prop :=
  ∀ s, OnwardFrom d s p s

variable {α β : Type} {d : Dialect}

section At

variable {p : Parser α} {q : α → Parser β} {o s : Cursor}

theorem Onward.ok {a : α} {u : Cursor} (h : Onward d p) (hp : p s = .ok a u) : s.LeadsTo u :=
  (h s).ok hp

theorem Onward.error {e : ParseError} {u : Cursor} (h : Onward d p) (hp : p s = .error e u) :
    ∃ v, s.LeadsTo v ∧ Raised d v e u :=
  (h s).error hp

theorem Onward.behind (h : Onward d p) (ho : o.LeadsTo s) : OnwardFrom d o p s where
  ok := h.ok
  error hp := by
    obtain ⟨v, hv, hraised⟩ := h.error hp
    exact ⟨v, ho.trans hv, hraised⟩

namespace OnwardFrom

theorem bind (h : OnwardFrom d o p s) (ho : o.LeadsTo s) (h' : ∀ a, Onward d (q a)) :
    OnwardFrom d o (p >>= q) s where
  ok hb := by
    obtain ⟨a, t, hp, hq⟩ := bind_eq_ok.mp hb
    exact (h.ok hp).trans ((h' a).ok hq)
  error hb := by
    rcases bind_eq_error.mp hb with hp | ⟨a, t, hp, hq⟩
    · exact h.error hp
    · exact ((h' a).behind (ho.trans (h.ok hp))).error hq

theorem step {a : α} {t : Cursor} (hp : p s = .ok a t) (ht : s.LeadsTo t)
    (h : OnwardFrom d o (q a) t) : OnwardFrom d o (p >>= q) s := by
  have hbind : (p >>= q) s = q a t := by
    show EStateM.bind p q s = _
    rw [EStateM.bind, hp]
  exact ⟨fun hu => ht.trans (h.ok (hbind ▸ hu)), fun hu => h.error (hbind ▸ hu)⟩

-- What comes next may depend on the token that is seen.
theorem current {q : Token → Parser β} (h : OnwardFrom d o (q s.current) s) :
    OnwardFrom d o (Parser.current >>= q) s :=
  step rfl (.refl s) h

theorem advance {q : Token → Parser β} (h : OnwardFrom d o (q s.current) s.next) :
    OnwardFrom d o (Parser.advance >>= q) s :=
  step rfl (.next s) h

theorem consume {k : TokenKind} {q : Bool → Parser β} (hend : k ≠ .endOfInput)
    (h : s.Reads [k] s.next → OnwardFrom d o (q true) s.next) (h' : OnwardFrom d o (q false) s) :
    OnwardFrom d o (Parser.consume k >>= q) s := by
  by_cases hk : s.current.kind = k
  · exact step (consume_eq_true hk) (.next s) (h (.next hk hend))
  · exact step (consume_eq_false hk) (.refl s) h'

end OnwardFrom

end At

namespace Onward

section Rules

variable {p p' : Parser α} {q : α → Parser β}

theorem pure (a : α) : Onward d (pure a) := fun s => by
  refine ⟨fun h => ?_, fun h => ?_⟩ <;> cases h
  exact .refl s

theorem fail (e : Expected) (c : Context) : Onward d (Parser.fail e c : Parser α) := fun s => by
  refine ⟨fun h => ?_, fun h => ?_⟩ <;> cases h
  exact ⟨s, .refl s, .mismatch e none c⟩

theorem current : Onward d Parser.current := fun s => by
  refine ⟨fun h => ?_, fun h => ?_⟩ <;> cases h
  exact .refl s

theorem advance : Onward d Parser.advance := fun s => by
  refine ⟨fun h => ?_, fun h => ?_⟩ <;> cases h
  exact .next s

theorem bind (h : Onward d p) (h' : ∀ a, Onward d (q a)) : Onward d (p >>= q) :=
  fun s => (h s).bind (.refl s) h'

theorem ite {b : Bool} (h : Onward d p) (h' : Onward d p') : Onward d (if b then p else p') := by
  cases b with
  | true => exact h
  | false => exact h'

theorem consume (k : TokenKind) : Onward d (Parser.consume k) :=
  bind (bind current fun _ => pure _) fun _ => ite (bind advance fun _ => pure true) (pure false)

theorem consumeKeyword (k : Keyword) : Onward d (Parser.consumeKeyword k) := consume _

theorem check (k : TokenKind) : Onward d (Parser.check k) :=
  bind current fun _ => pure _

theorem checkWord (word : String) : Onward d (Parser.checkWord word) :=
  bind current fun _ => pure _

theorem expectSymbol (s : Symbol) (e : Expected) (c : Context) :
    Onward d (Parser.expectSymbol s e c) :=
  bind (consume _) fun _ => ite (pure ()) (fail e c)

theorem expectKeyword (k : Keyword) (c : Context) : Onward d (Parser.expectKeyword k c) :=
  bind (consume _) fun _ => ite (pure ()) (fail _ c)

theorem expectWord (word : String) (c : Context) : Onward d (Parser.expectWord word c) :=
  bind (checkWord word) fun _ => ite (bind advance fun _ => pure ()) (fail _ c)

theorem inParens {c : Context} {e : Expected} (h : Onward d p) : Onward d (Parser.inParens c e p) :=
  bind (expectSymbol _ _ c) fun _ => bind h fun a => bind (expectSymbol _ e c) fun _ => pure a

theorem many {step : Parser (Option α)} (h : Onward d step) : Onward d (Parser.many step) := by
  intro s
  induction s using Parser.many.induct step with
  | case1 s e t hstep =>
      have hmany : Parser.many step s = .error e t := by rw [Parser.many, hstep]
      refine ⟨fun hu => ?_, fun hu => ?_⟩ <;> rw [hmany] at hu <;> cases hu
      exact h.error hstep
  | case2 s t hstep =>
      have hmany : Parser.many step s = .ok [] t := by rw [Parser.many, hstep]
      refine ⟨fun hu => ?_, fun hu => ?_⟩ <;> rw [hmany] at hu <;> cases hu
      exact h.ok hstep
  | case3 s a t hstep hlt rest v hrest ih =>
      have hmany : Parser.many step s = .ok (a :: rest) v := by
        rw [Parser.many, hstep]
        simp only [if_pos hlt, hrest]
      refine ⟨fun hu => ?_, fun hu => ?_⟩ <;> rw [hmany] at hu <;> cases hu
      exact (h.ok hstep).trans (ih.ok hrest)
  | case4 s a t hstep hlt e v hrest ih =>
      have hmany : Parser.many step s = .error e v := by
        rw [Parser.many, hstep]
        simp only [if_pos hlt, hrest]
      refine ⟨fun hu => ?_, fun hu => ?_⟩ <;> rw [hmany] at hu <;> cases hu
      obtain ⟨w, hw, hraised⟩ := ih.error hrest
      exact ⟨w, (h.ok hstep).trans hw, hraised⟩
  | case5 s a t hstep hlt =>
      have hmany : Parser.many step s = .ok [a] t := by
        rw [Parser.many, hstep]
        simp only [if_neg hlt]
      refine ⟨fun hu => ?_, fun hu => ?_⟩ <;> rw [hmany] at hu <;> cases hu
      exact h.ok hstep

theorem commaSeparated (h : Onward d p) : Onward d (Parser.commaSeparated p) :=
  bind h fun first => bind (many (bind (consume _) fun _ =>
    ite (bind h fun a => pure (some a)) (pure none))) fun rest => pure (first :: rest)

end Rules

section Names

theorem ident (c : Context) : Onward d (Parser.ident c) := by
  refine bind current fun t => ?_
  split
  · exact bind advance fun _ => pure _
  · exact fail _ c

theorem objectName (c : Context) : Onward d (Parser.objectName c) :=
  bind (ident c) fun _ => bind (consume _) fun _ => ite (bind (ident c) fun _ => pure _) (pure _)

theorem columnIdent (c : Context) : Onward d (Parser.columnIdent c) :=
  bind (ident c) fun _ => bind (consumeKeyword _) fun _ =>
    ite (pure _) (bind (consumeKeyword _) fun _ => pure _)

theorem columnList (c : Context) : Onward d (Parser.columnList c) :=
  inParens (commaSeparated (columnIdent c))

theorem constraintName? : Onward d Parser.constraintName? :=
  bind (consumeKeyword _) fun _ => ite (bind (ident _) fun _ => pure _) (pure _)

theorem ifNotExists (c : Context) : Onward d (Parser.ifNotExists c) :=
  bind (consumeKeyword _) fun _ => ite
    (bind (expectKeyword _ c) fun _ => bind (expectKeyword _ c) fun _ => pure _) (pure _)

theorem ifExists (c : Context) : Onward d (Parser.ifExists c) :=
  bind (consumeKeyword _) fun _ => ite (bind (expectKeyword _ c) fun _ => pure _) (pure _)

end Names

end Onward

namespace OnwardFrom

variable {o s : Cursor} {kinds : List TokenKind} {place : ExprPlace} {c : Context}

theorem exprBody (hopens : OpensExpr kinds place c) (hreads : o.Reads kinds s) :
    OnwardFrom d o (Parser.exprBody place c) s where
  ok {body u} h := by
    unfold Parser.exprBody at h
    dsimp only at h
    split at h
    · split at h
      · cases h
      · cases h
        exact leadsTo_splitExpr place s
    · cases h
    · cases h
    · cases h
  error {e u} h := by
    obtain ⟨hu, ⟨expected, rfl⟩ | rfl⟩ := exprBody_eq_error h
    · exact ⟨u, hreads.leadsTo.trans hu, .mismatch expected none c⟩
    · exact ⟨o, .refl o, .tooDeep hopens hreads h⟩

theorem expr (hopens : OpensExpr kinds place c) (hreads : o.Reads kinds s) :
    OnwardFrom d o (Parser.expr place c) s :=
  (exprBody hopens hreads).bind hreads.leadsTo fun _ => .pure _

theorem expectSymbol {k : Symbol} {e : Expected} {x : Context} {q : Unit → Parser β}
    (ho : o.LeadsTo s) (h : s.Reads [.symbol k] s.next → OnwardFrom d o (q ()) s.next) :
    OnwardFrom d o (Parser.expectSymbol k e x >>= q) s := by
  have hexpect := (Onward.expectSymbol (d := d) k e x).behind ho
  by_cases hk : s.current.kind = .symbol k
  · exact step (bind_eq_ok.mpr ⟨true, s.next, consume_eq_true hk, rfl⟩) (.next s)
      (h (.next hk (by simp)))
  · have hfails : Parser.expectSymbol k e x s = .error ⟨.unexpected e s.current none, x⟩ s :=
      bind_eq_error.mpr (.inr ⟨false, s, consume_eq_false hk, rfl⟩)
    refine ⟨fun hb => ?_, fun hb => ?_⟩
    · obtain ⟨_, t, hp, -⟩ := bind_eq_ok.mp hb
      rw [hfails] at hp
      cases hp
    · rcases bind_eq_error.mp hb with hp | ⟨_, t, hp, -⟩
      · exact hexpect.error hp
      · rw [hfails] at hp
        cases hp

theorem checkBody (hreads : o.Reads [.keyword .check] s) : OnwardFrom d o Parser.checkBody s :=
  expectSymbol hreads.leadsTo fun hparen =>
    (exprBody .check (hreads.trans hparen)).bind (hreads.trans hparen).leadsTo fun _ =>
      .bind (.expectSymbol _ _ _) fun _ => .pure _

end OnwardFrom

namespace Onward

section Columns

theorem qualifiedTypeWord : Onward d Parser.qualifiedTypeWord := by
  refine bind current fun t => ?_
  split
  · exact bind advance fun _ => bind (consume _) fun _ =>
      ite (bind (ident _) fun _ => pure _) (pure _)
  · exact fail _ _

theorem typeName : Onward d Parser.typeName := by
  refine bind qualifiedTypeWord fun name => ?_
  split
  · exact bind (checkWord _) fun _ => ite (bind advance fun _ => pure _) (pure _)
  · exact pure name

theorem typeParam : Onward d Parser.typeParam := by
  refine bind current fun t => ?_
  split
  · exact bind advance fun _ => pure _
  · exact bind advance fun _ => pure _
  · exact bind advance fun _ => pure _
  · exact fail _ _

theorem typeParams : Onward d Parser.typeParams :=
  bind (check _) fun _ => ite (inParens (commaSeparated typeParam)) (pure [])

theorem timeZone (type : String) : Onward d (Parser.timeZone type) :=
  bind current fun _ => ite (bind advance fun _ => bind (expectWord _ _) fun _ =>
    bind (expectWord _ _) fun _ => pure _) (pure _)

theorem typeSuffix? : Onward d (Parser.typeSuffix? d) := by
  refine bind current fun t => ?_
  split
  · exact bind advance fun _ => pure _
  · exact pure none

theorem arrayDims : Onward d (Parser.arrayDims d) :=
  ite (many (bind (consume _) fun _ => ite (bind (consume _) fun _ =>
    bind (expectSymbol _ _ _) fun _ => pure _) (pure _))) (pure [])

theorem dataType : Onward d (Parser.dataType d) :=
  bind typeName fun _ => bind typeParams fun _ => bind (timeZone _) fun _ =>
    bind (many typeSuffix?) fun _ => bind arrayDims fun _ => pure _

theorem referentialAction : Onward d Parser.referentialAction := by
  refine bind current fun t => ?_
  split
  · exact bind advance fun _ => pure _
  · exact bind advance fun _ => pure _
  · exact bind advance fun _ => bind (expectKeyword _ _) fun _ => pure _
  · exact bind advance fun _ => bind (consumeKeyword _) fun _ => ite (pure _)
      (bind (consumeKeyword _) fun _ => ite (pure _) (fail _ _))
  · exact fail _ _

theorem referenceClause? : Onward d Parser.referenceClause? :=
  bind (consumeKeyword _) fun _ => ite
    (bind (consumeKeyword _) fun _ => ite (bind referentialAction fun _ => pure _)
      (bind (consumeKeyword _) fun _ => ite (bind referentialAction fun _ => pure _) (fail _ _)))
    (pure none)

theorem reference : Onward d Parser.reference :=
  bind (expectKeyword _ _) fun _ => bind (objectName _) fun _ =>
    bind (bind (check _) fun _ => ite (columnList _) (pure [])) fun _ =>
    bind (many referenceClause?) fun _ => pure _

theorem foreignKey (table : ObjectName) (name : Option Ident) (columns : List ColumnIdent) :
    Onward d (Parser.foreignKey d table name columns) :=
  bind reference fun _ => pure _

theorem columnAttribute? : Onward d Parser.columnAttribute? := by
  refine fun s => .current ?_
  split
  · exact bind advance (fun _ => bind (expectKeyword _ _) fun _ => pure _) s
  · exact bind advance (fun _ => pure _) s
  · rename_i hk
    have hreads := Cursor.Reads.of_keyword hk
    exact .advance ((OnwardFrom.expr .default hreads).bind hreads.leadsTo fun _ => pure _)
  · exact bind advance (fun _ => pure _) s
  · exact pure none s

theorem columnClause? (table : ObjectName) (column : Ident) :
    Onward d (Parser.columnClause? d table column) := by
  refine bind constraintName? fun name s => .current ?_
  split
  · exact bind advance (fun _ => bind (expectKeyword _ _) fun _ => pure _) s
  · exact bind advance (fun _ => bind (consumeKeyword _) fun _ => pure _) s
  · exact bind (foreignKey _ _ _) (fun _ => pure _) s
  · rename_i hk
    have hreads := Cursor.Reads.of_keyword hk
    exact .advance ((OnwardFrom.checkBody hreads).bind hreads.leadsTo fun _ => pure _)
  · exact ite (fail _ _) columnAttribute? s

theorem columnDefinition (table : ObjectName) : Onward d (Parser.columnDefinition d table) :=
  bind (ident _) fun _ => bind dataType fun _ => bind (many (columnClause? _ _)) fun _ => pure _

end Columns

section Tables

theorem indexName? : Onward d Parser.indexName? :=
  bind (check _) fun _ => ite (pure none) (bind (ident _) fun _ => pure _)

theorem uniqueIndexName? : Onward d Parser.uniqueIndexName? := by
  refine bind (bind (consumeKeyword _) fun found => ?_) fun _ => ite indexName? (pure none)
  cases found with
  | true => exact pure true
  | false => exact consumeKeyword _

-- The hint changes what an error says, not where it stands.
theorem withQuoteHint {word : String} {body : Parser α} (h : Onward d body) :
    Onward d (Parser.withQuoteHint word body) := by
  refine fun s => ⟨fun hu => ?_, fun hu => ?_⟩
  · unfold Parser.withQuoteHint at hu
    split at hu
    · cases hu
    · exact h.ok hu
  · unfold Parser.withQuoteHint at hu
    split at hu
    · rename_i hbody
      cases hu
      obtain ⟨v, hv, hraised⟩ := h.error hbody
      cases hraised
      exact ⟨_, hv, .mismatch _ _ _⟩
    · exact h.error hu

theorem tableConstraint (table : ObjectName) : Onward d (Parser.tableConstraint d table) := by
  refine bind constraintName? fun name s => .current ?_
  dsimp only
  split
  · exact bind advance
      (fun _ => bind (expectKeyword _ _) fun _ => bind (columnList _) fun _ => pure _) s
  · exact bind advance (fun _ => bind (expectKeyword _ _) fun _ => bind (columnList _) fun _ =>
      foreignKey _ _ _) s
  · exact bind advance (fun _ => bind uniqueIndexName? fun _ => bind (columnList _) fun _ => pure _) s
  · rename_i hk
    have hreads := Cursor.Reads.of_keyword hk
    exact .advance ((OnwardFrom.checkBody hreads).bind hreads.leadsTo fun _ => pure _)
  -- `INDEX` and `KEY` open the same definition.
  iterate 2
    exact ite (bind advance fun _ => bind (withQuoteHint
      (bind indexName? fun _ => bind (columnList _) fun _ => pure _)) fun _ => pure _) (fail _ _) s
  · exact fail _ _ s

theorem tableElement (table : ObjectName) : Onward d (Parser.tableElement d table) :=
  bind current fun _ => ite (bind (tableConstraint table) fun _ => pure _)
    (bind (columnDefinition table) fun _ => pure _)

theorem tableElements (table : ObjectName) : Onward d (Parser.tableElements d table) :=
  bind (check _) fun _ => ite (pure []) (commaSeparated (tableElement table))

theorem optionName_suffix (known : List (List String)) (name : List String) (ts : List Token) :
    (optionName known name ts).2 <:+ ts := by
  induction ts generalizing name with
  | nil => exact List.suffix_refl _
  | cons t ts ih =>
      rw [optionName]
      split
      · dsimp only
        split
        · exact (ih _).trans (List.suffix_cons t ts)
        · exact List.suffix_refl _
      · exact List.suffix_refl _

theorem knownOptionName : Onward d (Parser.knownOptionName d) := fun s => by
  refine ⟨fun h => ?_, fun h => ?_⟩ <;> cases h
  exact ⟨optionName_suffix _ _ _, rfl⟩

theorem optionValue : Onward d Parser.optionValue := by
  refine bind current fun t => ?_
  cases t.kind with
  | quotedIdentifier q => exact bind advance fun _ => pure _
  | identifier | keyword k | number | string => exact bind advance fun _ => pure _
  | symbol s | comment | endOfInput | illegal => exact fail _ _

theorem tableOption? : Onward d (Parser.tableOption? d) := by
  refine bind knownOptionName fun name => ?_
  split
  · exact pure none
  · exact ite (bind (consume _) fun _ => bind optionValue fun _ => bind (consume _) fun _ => pure _)
      (fail _ _)

theorem createTable : Onward d (Parser.createTable d) :=
  bind (ifNotExists _) fun _ => bind (objectName _) fun name =>
    bind (inParens (tableElements name)) fun _ => bind (many tableOption?) fun _ => pure _

end Tables

section Statements

theorem indexPredicate? : Onward d Parser.indexPredicate? := fun _ =>
  .consume (by simp)
    (fun hreads => (OnwardFrom.expr .predicate hreads).bind hreads.leadsTo fun _ => pure _)
    (pure none _)

theorem createIndex (isUnique : Bool) : Onward d (Parser.createIndex isUnique) :=
  bind (ifNotExists _) fun _ => bind (objectName _) fun _ => bind (expectKeyword _ _) fun _ =>
    bind (objectName _) fun _ =>
    bind (bind (consumeKeyword _) fun _ => ite (bind (ident _) fun _ => pure _) (pure none)) fun _ =>
    bind (columnList _) fun _ =>
    bind indexPredicate? fun _ => pure _

theorem create : Onward d (Parser.create d) :=
  bind (expectKeyword _ _) fun _ => bind (consumeKeyword _) fun _ => ite
    (bind (expectKeyword _ _) fun _ => bind (createIndex true) fun _ => pure _)
    (bind (consumeKeyword _) fun _ => ite (bind (createIndex false) fun _ => pure _)
      (bind (consumeKeyword _) fun _ => ite (bind createTable fun _ => pure _) (fail _ _)))

theorem addedColumn (table : ObjectName) : Onward d (Parser.addedColumn d table) :=
  bind (columnDefinition table) fun _ => pure _

theorem notValid : Onward d Parser.notValid := fun s => by
  refine ⟨fun h => ?_, fun h => ?_⟩ <;> rw [notValid_eq] at h <;> split at h <;> cases h
  · exact (Cursor.LeadsTo.next s).trans (.next s.next)
  · exact .refl s

theorem columnChange : Onward d (Parser.columnChange d) := by
  refine fun s => .current ?_
  split
  · rename_i hk
    have hset := Cursor.Reads.of_keyword hk
    refine .advance (.consume (by simp) (fun hdata => ?_) (.consume (by simp) (fun hdefault => ?_) ?_))
    · exact (bind (expectKeyword _ _) fun _ => bind dataType fun _ => pure _).behind
        (hset.trans hdata).leadsTo
    · have hreads := hset.trans hdefault
      exact (OnwardFrom.expr .setDefault hreads).bind hreads.leadsTo fun _ => pure _
    · exact (bind (consumeKeyword _) fun _ => ite (bind (expectKeyword _ _) fun _ => pure _)
        (fail _ _)).behind hset.leadsTo
  · exact bind advance (fun _ => bind dataType fun _ => pure _) s
  · exact bind advance (fun _ => bind (consumeKeyword _) fun _ => ite (pure _)
      (bind (consumeKeyword _) fun _ => ite (bind (expectKeyword _ _) fun _ => pure _) (fail _ _))) s
  · exact fail _ _ s

theorem addChange (table : ObjectName) : Onward d (Parser.addChange d table) :=
  bind (consumeKeyword _) fun _ => ite (addedColumn table) (bind current fun _ => ite
    (bind (tableConstraint table) fun _ => bind notValid fun _ => pure _) (addedColumn table))

theorem dropChange : Onward d Parser.dropChange :=
  bind (consumeKeyword _) fun _ => ite (bind (ident _) fun _ => pure _)
    (bind (consumeKeyword _) fun _ => ite (bind (ident _) fun _ => pure _) (fail _ _))

theorem alterChange : Onward d (Parser.alterChange d) :=
  bind (consumeKeyword _) fun _ => bind (ident _) fun _ => bind columnChange fun _ => pure _

end Statements

end Onward

-- A constraint is only found behind the column, but the error stands where the column begins.
theorem OnwardFrom.modifiedColumn {o s : Cursor} {kinds : List TokenKind} (table : ObjectName)
    (hopens : OpensModify kinds) (hreads : o.Reads kinds s) :
    OnwardFrom d o (do
      let start ← Parser.current
      let definition ← columnDefinition d table
      if definition.constraints.isEmpty then return .modifyColumn definition.column
      else throw ⟨.constraintOnModify start.span, .alterTableAction⟩ : Parser TableChange) s := by
  refine .current ⟨fun h => ?_, fun h => ?_⟩
  · obtain ⟨definition, v, hdefinition, h⟩ := bind_eq_ok.mp h
    split at h
    · cases h
      exact Onward.columnDefinition table |>.ok hdefinition
    · cases h
  · rcases bind_eq_error.mp h with h | ⟨definition, v, hdefinition, h⟩
    · exact ((Onward.columnDefinition table).behind hreads.leadsTo).error h
    · split at h
      · cases h
      · rename_i hconstraints
        cases h
        exact ⟨o, .refl o, .refused hopens hreads hdefinition (by simpa using hconstraints)⟩

namespace Onward

section Statements

theorem renameChange : Onward d Parser.renameChange :=
  have hrename : ∀ (c : Context) (change : Ident → Ident → TableChange), Onward d (do
      let old ← Parser.ident c
      Parser.expectKeyword .toWord .alterTableAction
      return change old (← Parser.ident c)) :=
    fun _ _ => bind (ident _) fun _ => bind (expectKeyword _ _) fun _ =>
      bind (ident _) fun _ => pure _
  bind (consumeKeyword _) fun _ => ite (bind (ident _) fun _ => pure _)
    (bind (consumeKeyword _) fun _ => ite (hrename .columnName .renameColumn)
      (bind (consumeKeyword _) fun _ => ite (hrename .constraintName .renameConstraint) (fail _ _)))

theorem modifyChange {s : Cursor} (table : ObjectName) (hk : s.current.keyword? = some .modify) :
    OnwardFrom d s (Parser.modifyChange d table) s.next :=
  have hmodify := Cursor.Reads.of_keyword hk
  .consume (by simp) (fun hcolumn => .modifiedColumn table .column (hmodify.trans hcolumn))
    (.modifiedColumn table .bare hmodify)

theorem tableChanges (table : ObjectName) : Onward d (Parser.tableChanges d table) := by
  refine fun s => .current ?_
  split
  · exact bind advance (fun _ => addChange table) s
  · exact bind advance (fun _ => bind dropChange fun _ => pure _) s
  · exact bind advance (fun _ => bind alterChange fun _ => pure _) s
  · rename_i hk
    exact .advance ((modifyChange table hk).bind (.next s) fun _ => pure _)
  · exact bind advance (fun _ => bind renameChange fun _ => pure _) s
  · exact fail _ _ s

theorem alterTable : Onward d (Parser.alterTable d) :=
  bind (expectKeyword _ _) fun _ => bind (expectKeyword _ _) fun _ => bind (objectName _) fun name =>
    bind (commaSeparated (tableChanges name)) fun _ => pure _

theorem drop : Onward d Parser.drop :=
  bind (expectKeyword _ _) fun _ => bind (consumeKeyword _) fun _ => ite
    (bind (ifExists _) fun _ => bind (objectName _) fun _ => pure _)
    (bind (consumeKeyword _) fun _ => ite
      (bind (ifExists _) fun _ => bind (objectName _) fun _ => bind (consumeKeyword _) fun _ =>
        ite (bind (objectName _) fun _ => pure _) (pure _))
      (fail _ _))

theorem statementEnd : Onward d Parser.statementEnd :=
  bind current fun _ => ite (pure ()) (fail _ _)

theorem statements? : Onward d (Parser.statements? d) := by
  refine bind current fun t => ?_
  split
  · exact pure none
  · exact bind advance fun _ => pure _
  · exact bind create fun _ => bind statementEnd fun _ => pure _
  · exact bind alterTable fun _ => bind statementEnd fun _ => pure _
  · exact bind drop fun _ => bind statementEnd fun _ => pure _
  · exact fail _ _

theorem script : Onward d (Parser.script d) :=
  bind (many statements?) fun _ => pure _

end Statements

end Onward

namespace Raised

variable {o u : Cursor} {e : ParseError}

-- The error stands at a token between the two cursors.
theorem stands (h : Raised d o e u) : ∃ v, o.LeadsTo v ∧ v.LeadsTo u ∧ e.span = v.current.span := by
  cases h with
  | mismatch expected hint c => exact ⟨o, .refl o, .refl o, rfl⟩
  | tooDeep hopens hreads hbody =>
      obtain ⟨hu, ⟨expected, he⟩ | he⟩ := exprBody_eq_error hbody
      · cases he
      · exact ⟨u, hreads.leadsTo.trans hu, .refl u, congrArg ParseError.span he⟩
  | refused hopens hreads hdefinition hconstraints =>
      exact ⟨_, hreads.leadsTo, (Onward.columnDefinition _).ok hdefinition, rfl⟩

theorem exists_exprBody {bracket : Span} (h : Raised d o e u)
    (hf : e.fault = .nestingTooDeep bracket) :
    ∃ place c v, o.LeadsTo v ∧ exprBody place c v = .error e u := by
  cases h with
  | mismatch expected hint c => cases hf
  | tooDeep hopens hreads hbody => exact ⟨_, _, _, hreads.leadsTo, hbody⟩
  | refused hopens hreads hdefinition hconstraints => cases hf

end Raised

end Parser

-- Every error of a script is raised behind its beginning.
theorem Script.exists_raised {d : Dialect} {text : String} {e : ParseError}
    (h : Script.parse d text = .error e) :
    ∃ o u, (Cursor.ofText d text).LeadsTo o ∧ Parser.Raised d o e u := by
  unfold Script.parse at h
  split at h
  · cases h
  · rename_i u hscript
    cases h
    obtain ⟨o, ho, hraised⟩ := Parser.Onward.script.error hscript
    exact ⟨o, u, ho, hraised⟩

end SchemaDiff
