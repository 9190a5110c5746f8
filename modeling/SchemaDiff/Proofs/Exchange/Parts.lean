import SchemaDiff.Proofs.Completion.Table
import SchemaDiff.Proofs.Exchange.Rules

namespace SchemaDiff.Parser

-- What stands behind a part of a column definition: another clause, or the end of the definition.
def behindPart : List TokenKind :=
  [.symbol .comma, .symbol .rightParen, .keyword .not, .keyword .null, .keyword .default,
    .keyword .autoIncrement, .keyword .constraint, .keyword .primary, .keyword .unique,
    .keyword .references, .keyword .check]

-- Nothing comes to stand first that could not stand behind a part of a column definition.
def Exchange.Parted (E : Exchange) : Prop :=
  ∀ k, k ∉ behindPart → E.Keeps k

theorem Exchange.parted_kinds {K : List TokenKind} (h : K ⊆ behindPart) : (kinds K).Parted :=
  fun _ hk => keeps_kinds fun hmem => hk (h hmem)

theorem Exchange.parted_pair : pair.Parted :=
  fun k _ => keeps_pair k

namespace Rereads

variable {α : Type} {d : Dialect} {E : Exchange} {takes : Prop}

section Names

theorem ident (c : Context) : Rereads True E (Parser.ident c) := by
  intro s
  refine .current (fun _ => rfl) (.inl trivial) ?_
  split
  · rename_i name hname
    exact .advance (fun _ => rfl) (Token.identOf?_ne hname).1 (pure name)
  · exact .fail _ c

variable [Exchange.Extends E E] (hE : E.Parted)

theorem columnIdent (c : Context) (hasc : E.Keeps (.keyword .asc)) (hdesc : E.Keeps (.keyword .desc)) :
    Rereads True E (Parser.columnIdent c) :=
  bind (ident c) fun name => consume hdesc (by simp) (pure _)
    ((consumeOnly hasc (by simp)).bind fun _ => pure _)

theorem columnList (c : Context) : Rereads takes E (Parser.columnList c) :=
  inParens (F := .kinds []) (commaSeparated (columnIdent c (Exchange.keeps_kinds (by simp))
    (Exchange.keeps_kinds (by simp))) (Exchange.keeps_kinds (by simp)))

theorem constraintName? (hk : E.Keeps (.keyword .constraint)) :
    Rereads False E Parser.constraintName? :=
  consume hk (by simp) ((ident _).weaken.map some) (pure none)

include hE

theorem objectName (c : Context) : Rereads True E (Parser.objectName c) :=
  bind (ident c) fun first => consume (hE _ (by decide)) (by simp)
    ((ident c).weaken.bind fun _ => pure _) (pure _)

end Names

section Types

variable (hE : E.Parted)

theorem typeParam : Rereads True E Parser.typeParam := by
  have hread (s : Cursor) (hend : s.current.kind ≠ .endOfInput) :
      RereadsAt True E (Parser.advance >>= fun t => Pure.pure (Ident.bare t.literal)) s :=
    .advance (fun _ => rfl) hend (pure _)
  intro s
  refine .current (fun _ => rfl) (.inl trivial) ?_
  split
  · rename_i hkind
    exact hread s (by simp [hkind])
  · rename_i hkind
    exact hread s (by simp [hkind])
  · rename_i hkind
    exact hread s (by simp [hkind])
  · exact .fail _ _

include hE

theorem typeSuffix? : Rereads False E (Parser.typeSuffix? d) := by
  have hidentifier : E.Keeps .identifier := hE _ (by decide)
  intro s
  cases hs : d.typeSuffixes.find? s.current.isWord with
  | some word =>
      refine RereadsAt.of_takes (.current (fun _ => rfl) (.inl trivial) ?_)
      rw [hs]
      exact .advance (fun _ => rfl) (Token.isWord_ne (List.find?_some hs)).1 (pure _)
  | none =>
      refine .current (fun _ => rfl) (.inr fun Y hY => (hidentifier _ Y hY).imp_right fun hne => ?_) ?_
      · have hnone : d.typeSuffixes.find? (Face.first Y).token.isWord = none :=
          List.find?_eq_none.mpr fun word _ hword => hne (Token.kind_of_isWord hword)
        rw [hs, hnone]
      · rw [hs]
        exact .pure none

variable [Exchange.Extends E E]

theorem qualifiedTypeWord : Rereads True E Parser.qualifiedTypeWord := by
  intro s
  refine .current (fun _ => rfl) (.inl trivial) ?_
  split
  · rename_i first hfirst
    exact .advance (fun _ => rfl) (Token.typeWord?_ne hfirst).1 (consume (hE _ (by decide)) (by simp)
      ((ident _).weaken.map fun part => first ++ "." ++ part.raw) (pure _))
  · exact .fail _ _

theorem typeName : Rereads True E Parser.typeName := by
  refine bind (qualifiedTypeWord hE) fun name => ?_
  split
  · exact word (hE _ (by decide)) (pure _) (pure _)
  · exact pure name

theorem typeParams : Rereads False E Parser.typeParams :=
  check (hE _ (by decide)) (fun s _ => inParens (F := .kinds [])
    (commaSeparated typeParam (Exchange.keeps_kinds (by simp))) s) fun _ _ => .pure []

theorem timeZone (type : String) : Rereads False E (Parser.timeZone type) := by
  have hidentifier : E.Keeps .identifier := hE _ (by decide)
  intro s
  by_cases hs : (["TIME", "TIMESTAMP"].contains type &&
      (s.current.isWord "WITH" || s.current.isWord "WITHOUT")) = true
  · have hend : s.current.kind ≠ .endOfInput := by
      simp only [Bool.and_eq_true, Bool.or_eq_true] at hs
      exact hs.2.elim (fun h => (Token.isWord_ne h).1) fun h => (Token.isWord_ne h).1
    refine RereadsAt.of_takes (.current (fun _ => rfl) (.inl trivial) ?_)
    rw [if_pos hs]
    exact .advance (fun _ => rfl) hend (bind (expectWord _ _ hidentifier).weaken fun _ =>
      (expectWord _ _ hidentifier).weaken.bind fun _ => pure _)
  · refine .current (fun _ => rfl) (.inr fun Y hY => (hidentifier _ Y hY).imp_right fun hne => ?_) ?_
    · have hword (word : String) : (Face.first Y).token.isWord word = false := by
        rw [← Bool.not_eq_true]
        exact fun hword => hne (Token.kind_of_isWord hword)
      rw [if_neg hs, hword, hword]
      simp
    · rw [if_neg hs]
      exact .pure []

theorem arrayDims : Rereads False E (Parser.arrayDims d) := by
  have hdim : Rereads False E Parser.arrayDim? :=
    consume (hE _ (by decide)) (by simp) (bind (consumeOnly (hE _ (by decide)) (by simp)) fun _ =>
      (expectSymbol _ _ _).weaken.bind fun _ => pure _) (pure none)
  exact ite (many hdim) (pure [])

theorem dataType : Rereads True E (Parser.dataType d) :=
  bind (typeName hE) fun _ => bind (typeParams hE) fun _ => bind (timeZone hE _) fun _ =>
    bind (many (typeSuffix? hE)) fun _ => (arrayDims hE).bind fun _ => pure _

end Types

section References

variable [Exchange.Extends E E] (hE : E.Parted)

-- What stands behind `SET` is read in any case.
theorem referentialAction : Rereads True E Parser.referentialAction := by
  intro s
  refine .current (fun _ => rfl) (.inl trivial) ?_
  split
  · rename_i hk
    exact advance_keyword hk (fun _ => rfl) (pure _)
  · rename_i hk
    exact advance_keyword hk (fun _ => rfl) (pure _)
  · rename_i hk
    exact advance_keyword hk (fun _ => rfl) ((expectKeyword _ _).bind fun _ => pure _)
  · rename_i hk
    exact advance_keyword hk (fun _ => rfl) (consume_takes (by simp) (pure _)
      (consume_takes (by simp) (pure _) (fail _ _)))
  · exact .fail _ _

include hE

theorem referenceClause? : Rereads False E Parser.referenceClause? :=
  consume (hE _ (by decide)) (by simp)
    (consume (hE _ (by decide)) (by simp) (referentialAction.weaken.bind fun _ => pure _)
      (consume (hE _ (by decide)) (by simp) (referentialAction.weaken.bind fun _ => pure _) (fail _ _)))
    (pure none)

theorem referencedColumns : Rereads False E Parser.referencedColumns :=
  check (hE _ (by decide)) (fun s _ => columnList _ s) fun _ _ => .pure []

theorem reference : Rereads True E Parser.reference :=
  bind (expectKeyword _ _) fun _ => bind (objectName hE _).weaken fun _ =>
    bind (referencedColumns hE) fun _ => (many (referenceClause? hE)).bind fun _ => pure _

theorem foreignKey (table : ObjectName) (name : Option Ident) (columns : List ColumnIdent) :
    Rereads True E (Parser.foreignKey d table name columns) :=
  (reference hE).bind fun _ => pure _

end References

section Expressions

variable {γ : Type} {g : List Token → γ} {place : ExprPlace} {c : Context}

-- An expression ends where the rest that followed it looks the same.
theorem exprBody
    (hg : ∀ body body', body.map Token.face = body'.map Token.face → g body = g body')
    (hE : ∀ X Y, E X Y → place.lookahead.Agree X Y) :
    Rereads True E (Parser.exprBody place c >>= fun body => Pure.pure (g body)) := by
  intro s a u h
  obtain ⟨body, t, hbody, hpure⟩ := bind_eq_ok.mp h
  cases hpure
  obtain ⟨hsplit, hne⟩ := exprBody_ok hbody
  have hsource := (splitExpr_source place 0 true s.ahead).1
  rw [hsplit] at hsource
  refine ⟨body.map Token.face, ?_, fun _ => by simpa using hne, fun Y hY => ?_⟩
  · rw [Cursor.faces, Cursor.faces, ← List.map_append, ← hsource]
  · exact steps_exprBody hg hne fun s' hs' => splitExpr_agree hsplit hs' (hE _ Y hY)

theorem agree_pair (X Y : List Face) (h : Exchange.pair X Y) : place.lookahead.Agree X Y := by
  refine ⟨h.1.symm, ?_⟩
  cases place with
  | columnDefault => exact fun hnot hnull => by rw [h.2 hnot, hnull]
  | _ => trivial

theorem expr : Rereads True .pair (Parser.expr place c) :=
  exprBody (fun _ _ => exprOf_of_faces) agree_pair

-- The body ends at the parenthesis that closes it, whatever follows.
theorem checkBody [Exchange.Extends E E]
    (hg : ∀ body body', body.map Token.face = body'.map Token.face → g body = g body') :
    Rereads takes E (Parser.checkBody >>= fun body => Pure.pure (g body)) := by
  rw [checkBody_bind_pure]
  refine inParens (F := .kinds []) (exprBody hg fun X Y hY => ⟨?_, trivial⟩)
  exact (hY.resolve_right (by simp)).symm

end Expressions

section Columns

variable (table : ObjectName)

theorem columnAttribute? : Rereads False .pair Parser.columnAttribute? := by
  intro s
  refine .current (fun _ => rfl) (.inr fun Y hY => .inl hY.1) ?_
  split
  · rename_i hk
    exact advance_keyword hk (fun _ => rfl) ((expectKeyword _ _).bind fun _ => pure _)
  · rename_i hk
    exact advance_keyword hk (fun _ => rfl) (pure _)
  · rename_i hk
    exact advance_keyword hk (fun _ => rfl) (expr.bind fun _ => pure _)
  · rename_i hk
    exact advance_keyword hk (fun _ => rfl) (pure _)
  · exact .pure none

theorem columnClause? (column : Ident) :
    Rereads False .pair (Parser.columnClause? d table column) := by
  refine bind (constraintName? (Exchange.keeps_pair _)) fun name s => ?_
  refine .current (fun _ => rfl) (.inr fun Y hY => .inl hY.1) ?_
  split
  · rename_i hk
    exact advance_keyword hk (fun _ => rfl) ((expectKeyword _ _).bind fun _ => pure _)
  · rename_i hk
    exact advance_keyword hk (fun _ => rfl)
      ((consumeOnly (Exchange.keeps_pair _) (by simp)).bind fun _ => pure _)
  · exact ((foreignKey Exchange.parted_pair table name _).weaken.map _) s
  · rename_i hk
    refine advance_keyword hk (fun _ => rfl) (P := False) (checkBody fun body body' h => ?_)
    rw [exprOf_of_faces h]
  · split
    · exact .fail _ _
    · exact columnAttribute? s

theorem columnDefinition : Rereads True .pair (Parser.columnDefinition d table) :=
  bind (ident _) fun name => bind (dataType Exchange.parted_pair).weaken fun _ =>
    (many (columnClause? table name)).bind fun _ => pure _

end Columns

section Constraints

variable (table : ObjectName)

theorem indexName? : Rereads False .pair Parser.indexName? :=
  check_pair (fun _ _ => .pure none) fun s _ => ((ident _).weaken.map some) s

theorem uniqueIndexName? : Rereads False .pair Parser.uniqueIndexName? := by
  have hword : Rereads False .pair (Parser.consumeKeyword .key <||> Parser.consumeKeyword .index) :=
    consume (Exchange.keeps_pair _) (by simp) (pure true)
      (consumeOnly (Exchange.keeps_pair _) (by simp))
  refine hword.bind fun found => ?_
  split
  · exact indexName?
  · exact pure none

theorem inlineIndex : Rereads False .pair Parser.inlineIndex :=
  indexName?.bind fun name => (columnList _).map (name, ·)

theorem withQuoteHint {p : Parser α} (word : String) (h : Rereads takes E p) :
    Rereads takes E (Parser.withQuoteHint word p) := by
  intro s a u hu
  obtain ⟨r, hr, hne, hsteps⟩ := h s a u (Viable.withQuoteHint_eq_ok hu)
  exact ⟨r, hr, hne, fun Y hY => Steps.withQuoteHint word (hsteps Y hY)⟩

theorem tableConstraint : Rereads False .pair (Parser.tableConstraint d table) := by
  refine bind (constraintName? (Exchange.keeps_pair _)) fun name s => ?_
  refine .current (fun _ => rfl) (.inr fun Y hY => .inl hY.1) ?_
  split
  · rename_i hk
    exact advance_keyword hk (fun _ => rfl)
      ((expectKeyword _ _).bind fun _ => (columnList _).bind fun _ => pure _)
  · rename_i hk
    exact advance_keyword hk (fun _ => rfl) ((expectKeyword _ _).bind fun _ => (columnList _).bind
      fun columns => (foreignKey Exchange.parted_pair table name columns).weaken)
  · rename_i hk
    exact advance_keyword hk (fun _ => rfl)
      (uniqueIndexName?.bind fun _ => (columnList _).bind fun _ => pure _)
  · rename_i hk
    refine advance_keyword hk (fun _ => rfl) (P := False) (checkBody fun body body' h => ?_)
    rw [exprOf_of_faces h, firstColumn?_of_faces h]
  · rename_i hk
    split
    · exact advance_keyword hk (fun _ => rfl) ((withQuoteHint _ inlineIndex).bind fun _ => pure _)
    · exact .fail _ _
  · rename_i hk
    split
    · exact advance_keyword hk (fun _ => rfl) ((withQuoteHint _ inlineIndex).bind fun _ => pure _)
    · exact .fail _ _
  · exact .fail _ _

theorem tableElement : Rereads False .pair (Parser.tableElement d table) := by
  intro s
  refine .current (fun _ => rfl) (.inr fun Y hY => .inl hY.1) ?_
  split
  · exact ((tableConstraint table).map _) s
  · exact ((columnDefinition table).weaken.map _) s

end Constraints

end Rereads

end SchemaDiff.Parser
