import SchemaDiff.Proofs.Expr
import SchemaDiff.Proofs.Parser.Likeness

namespace SchemaDiff

-- Trees that differ in the values of table options at most.
def TableOption.Like (V : Ident → Ident → Prop) (o o' : TableOption) : Prop :=
  V o.value o'.value ∧ o' = { o with value := o'.value }

def CreateTable.Like (V : Ident → Ident → Prop) (t t' : CreateTable) : Prop :=
  List.Forall₂ (TableOption.Like V) t.options t'.options ∧ t' = { t with options := t'.options }

def Statement.Like (V : Ident → Ident → Prop) : Statement → Statement → Prop
  | createTable t, createTable t' => t.Like V t'
  | s, s' => s' = s

def Statement.options : Statement → List TableOption
  | createTable t => t.options
  | _ => []

theorem TableOption.eq_of_like {V : Ident → Ident → Prop} {os os' : List TableOption}
    (h : List.Forall₂ (TableOption.Like V) os os')
    (hV : ∀ o ∈ os, ∀ value, V o.value value → o.value = value) : os = os' := by
  induction h with
  | nil => rfl
  | cons ho _ ih =>
      rw [List.forall_mem_cons] at hV
      rw [ih hV.2, ho.2, ← hV.1 _ ho.1]

-- With the same values of options they are the same.
theorem Statement.Like.eq_of {V : Ident → Ident → Prop} {s s' : Statement} (h : s.Like V s')
    (hV : ∀ o ∈ s.options, ∀ value, V o.value value → o.value = value) : s = s' := by
  cases s with
  | createTable t =>
      cases s' with
      | createTable t' =>
          obtain ⟨hoptions, heq⟩ := h
          rw [heq, ← TableOption.eq_of_like hoptions hV]
      | _ => exact Eq.symm h
  | _ => exact Eq.symm h

theorem Token.identOf?_ne {t : Token} {name : Ident} (h : Parser.identOf? t = some name) :
    t.kind ≠ .endOfInput ∧ t.kind ≠ .illegal := by
  constructor <;>
  · intro hkind
    simp [Parser.identOf?, hkind] at h

theorem Token.typeWord?_ne {t : Token} {word : String} (h : Parser.typeWord? t = some word) :
    t.kind ≠ .endOfInput ∧ t.kind ≠ .illegal := by
  constructor <;>
  · intro hkind
    simp [Parser.typeWord?, hkind] at h

-- The only place besides expressions that looks past the current token.
theorem Parser.notValid_eq (s : Cursor) : Parser.notValid s =
    if s.current.kind == .keyword .not && s.ahead.tail.head?.any (·.kind == .keyword .valid) then
      .ok true s.next.next
    else .ok false s := by
  show (if _ then _ else _ : Parser Bool) s = _
  split <;> rfl

namespace Parser.Likeness.Respects

variable {L : Likeness} [L.Lawful] {d : Dialect}

section Names

theorem ident (c : Context) : L.Respects (Parser.ident c) := by
  refine Alike.current fun t t' ht => ?_
  rw [(Lawful.reads ht).identOf?_eq]
  split
  · rename_i name hname
    exact .advance (Token.identOf?_ne hname) (pure name)
  · exact .of (fail _ c)

theorem objectName (c : Context) : L.Respects (Parser.objectName c) := by
  refine bind (ident c) fun first => bind (consumeSymbol (by simp)) fun found => ?_
  cases found with
  | true => exact bind (ident c) fun _ => pure _
  | false => exact pure _

theorem columnIdent (c : Context) : L.Respects (Parser.columnIdent c) := by
  refine bind (ident c) fun name => bind (consumeKeyword _) fun found => ?_
  cases found with
  | true => exact pure _
  | false => exact bind (consumeKeyword _) fun _ => pure _

theorem columnList (c : Context) : L.Respects (Parser.columnList c) :=
  Alike.inParens c _ (commaSeparated (columnIdent c))

theorem constraintName? : L.Respects Parser.constraintName? := by
  refine bind (consumeKeyword _) fun found => ?_
  cases found with
  | true => exact bind (ident _) fun _ => pure _
  | false => exact pure _

theorem ifNotExists (c : Context) : L.Respects (Parser.ifNotExists c) := by
  refine bind (consumeKeyword _) fun found => ?_
  cases found with
  | true => exact bind (expectKeyword _ c) fun _ => bind (expectKeyword _ c) fun _ => pure _
  | false => exact pure _

theorem ifExists (c : Context) : L.Respects (Parser.ifExists c) := by
  refine bind (consumeKeyword _) fun found => ?_
  cases found with
  | true => exact bind (expectKeyword _ c) fun _ => pure _
  | false => exact pure _

end Names

section Expressions

theorem expr (place : ExprPlace) (c : Context) : L.Respects (Parser.expr place c) :=
  Alike.bind (Lawful.exprBody place c) fun _ _ hbody => .pure hbody.1.symm

theorem checkBody : L.Alike SameBody Parser.checkBody Parser.checkBody :=
  Alike.inParens _ _ (Lawful.exprBody _ _)

end Expressions

section Columns

theorem qualifiedTypeWord : L.Respects Parser.qualifiedTypeWord := by
  refine Alike.current fun t t' ht => ?_
  rw [(Lawful.reads ht).typeWord?_eq]
  split
  · rename_i word hword
    refine .advance (Token.typeWord?_ne hword) (bind (consumeSymbol (by simp)) fun found => ?_)
    cases found with
    | true => exact bind (ident _) fun _ => pure _
    | false => exact pure _
  · exact .of (fail _ _)

theorem typeName : L.Respects Parser.typeName := by
  refine bind qualifiedTypeWord fun name => ?_
  split
  · exact ifWord _ (pure _) (pure _)
  · exact pure name

-- A parameter is no keyword.
theorem readParam {t t' : Token} (ht : L.Tokens t t') (hend : t.kind ≠ .endOfInput)
    (hillegal : t.kind ≠ .illegal) (hkeyword : ∀ k, t.kind ≠ .keyword k) :
    L.AlikeAt t t' Eq (Parser.advance >>= fun t => Pure.pure (Ident.bare t.literal))
      (Parser.advance >>= fun t => Pure.pure (Ident.bare t.literal)) := by
  refine .advance ⟨hend, hillegal⟩ (.pure ?_)
  rw [(Lawful.reads ht).literal_eq hend (Token.not_isReserved hkeyword)]

theorem typeParam : L.Respects Parser.typeParam := by
  refine Alike.current fun t t' ht => ?_
  obtain ⟨hsame, -⟩ | ⟨hend, hsemicolon⟩ := Lawful.reads ht
  · rw [hsame]
    split
    · rename_i hkind
      exact readParam ht (by simp [hkind]) (by simp [hkind]) (by simp [hkind])
    · rename_i hkind
      exact readParam ht (by simp [hkind]) (by simp [hkind]) (by simp [hkind])
    · rename_i hkind
      exact readParam ht (by simp [hkind]) (by simp [hkind]) (by simp [hkind])
    · exact .of (fail _ _)
  · rw [hend, hsemicolon]
    exact .of (fail _ _)

theorem typeParams : L.Respects Parser.typeParams := by
  refine bind (check (by simp [Plain])) fun found => ?_
  split
  · exact Alike.inParens _ _ (commaSeparated typeParam)
  · exact pure []

theorem timeZone (type : String) : L.Respects (Parser.timeZone type) := by
  refine Alike.current fun t t' ht => ?_
  rw [(Lawful.reads ht).isWord_eq, (Lawful.reads ht).isWord_eq]
  split
  · rename_i hword
    have hkind : t.kind = .identifier := by
      simp only [Bool.and_eq_true, Bool.or_eq_true] at hword
      exact hword.2.elim Token.kind_of_isWord Token.kind_of_isWord
    rw [(Lawful.reads ht).literal_eq (by simp [hkind]) (Token.not_isReserved (by simp [hkind]))]
    exact .advance (by simp [hkind]) (bind (expectWord _ _) fun _ => bind (expectWord _ _) fun _ =>
      pure _)
  · exact .of (pure _)

theorem typeSuffix? : L.Respects (Parser.typeSuffix? d) := by
  refine Alike.current fun t t' ht => ?_
  have hword : t'.isWord = t.isWord := funext (Lawful.reads ht).isWord_eq
  rw [hword]
  split
  · rename_i word hfind
    exact .advance (Token.isWord_ne (List.find?_some hfind)) (pure _)
  · exact .of (pure _)

theorem arrayDim? : L.Respects Parser.arrayDim? := by
  refine bind (consumeSymbol (by simp)) fun found => ?_
  cases found with
  | true =>
      exact bind (consume (by simp [Plain])) fun _ =>
        bind (expectSymbol (by simp) _ _) fun _ => pure _
  | false => exact pure _

theorem arrayDims : L.Respects (Parser.arrayDims d) := by
  cases d with
  | mysql => exact pure []
  | _ => exact many arrayDim?

theorem dataType : L.Respects (Parser.dataType d) :=
  bind typeName fun name => bind typeParams fun _ => bind (timeZone name) fun _ =>
    bind (many typeSuffix?) fun _ => bind arrayDims fun _ => pure _

theorem referentialAction : L.Respects Parser.referentialAction := by
  refine Alike.current fun t t' ht => ?_
  rw [(Lawful.reads ht).keyword?_eq]
  split
  · rename_i hk
    exact .advance (Token.keyword?_ne hk) (pure _)
  · rename_i hk
    exact .advance (Token.keyword?_ne hk) (pure _)
  · rename_i hk
    exact .advance (Token.keyword?_ne hk) (bind (expectKeyword _ _) fun _ => pure _)
  · rename_i hk
    refine .advance (Token.keyword?_ne hk) (bind (consumeKeyword _) fun found => ?_)
    cases found with
    | true => exact pure _
    | false =>
        refine bind (consumeKeyword _) fun found => ?_
        cases found with
        | true => exact pure _
        | false => exact fail _ _
  · exact .of (fail _ _)

theorem referenceClause? : L.Respects Parser.referenceClause? := by
  refine bind (consumeKeyword _) fun found => ?_
  cases found with
  | false => exact pure none
  | true =>
      refine bind (consumeKeyword _) fun found => ?_
      cases found with
      | true => exact bind referentialAction fun _ => pure _
      | false =>
          refine bind (consumeKeyword _) fun found => ?_
          cases found with
          | true => exact bind referentialAction fun _ => pure _
          | false => exact fail _ _

theorem referencedColumns : L.Respects Parser.referencedColumns := by
  refine bind (check (by simp [Plain])) fun found => ?_
  split
  · exact columnList _
  · exact pure []

theorem reference : L.Respects Parser.reference :=
  bind (expectKeyword _ _) fun _ => bind (objectName _) fun _ => bind referencedColumns fun _ =>
    bind (many referenceClause?) fun _ => pure _

theorem foreignKey (table : ObjectName) (name : Option Ident) (columns : List ColumnIdent) :
    L.Respects (Parser.foreignKey d table name columns) :=
  bind reference fun _ => pure _

theorem columnAttribute? : L.Respects Parser.columnAttribute? := by
  refine Alike.current fun t t' ht => ?_
  rw [(Lawful.reads ht).keyword?_eq]
  split
  · rename_i hk
    exact .advance (Token.keyword?_ne hk) (bind (expectKeyword _ _) fun _ => pure _)
  · rename_i hk
    exact .advance (Token.keyword?_ne hk) (pure _)
  · rename_i hk
    exact .advance (Token.keyword?_ne hk) (bind (expr _ _) fun _ => pure _)
  · rename_i hk
    exact .advance (Token.keyword?_ne hk) (pure _)
  · exact .of (pure none)

theorem columnClause? (table : ObjectName) (column : Ident) :
    L.Respects (Parser.columnClause? d table column) := by
  refine bind constraintName? fun name => Alike.current fun t t' ht => ?_
  rw [(Lawful.reads ht).keyword?_eq]
  split
  · rename_i hk
    exact .advance (Token.keyword?_ne hk) (bind (expectKeyword _ _) fun _ => pure _)
  · rename_i hk
    exact .advance (Token.keyword?_ne hk) (bind (consumeKeyword _) fun _ => pure _)
  · exact .of (bind (foreignKey _ _ _) fun _ => pure _)
  · rename_i hk
    refine .advance (Token.keyword?_ne hk) (Alike.bind checkBody fun body body' hbody => ?_)
    rw [hbody.1]
    exact pure _
  · refine .of ?_
    split
    · exact fail _ _
    · exact columnAttribute?

theorem columnDefinition (table : ObjectName) :
    L.Respects (Parser.columnDefinition d table) :=
  bind (ident _) fun name => bind dataType fun _ => bind (many (columnClause? table name)) fun _ =>
    pure _

end Columns

section Tables

theorem indexName? : L.Respects Parser.indexName? := by
  refine bind (check (by simp [Plain])) fun found => ?_
  split
  · exact pure none
  · exact bind (ident _) fun _ => pure _

theorem uniqueIndexName? : L.Respects Parser.uniqueIndexName? := by
  refine bind (bind (consumeKeyword _) fun found => ?_) fun found => ?_
  · cases found with
    | true => exact pure true
    | false => exact consumeKeyword _
  · split
    · exact indexName?
    · exact pure none

theorem inlineIndex : L.Respects Parser.inlineIndex :=
  bind indexName? fun _ => bind (columnList _) fun _ => pure _

-- The word that opens an index is repeated in the hint alone.
theorem inlineBranch {t t' : Token} (ht : L.Tokens t t')
    (hk : t.kind ≠ .endOfInput ∧ t.kind ≠ .illegal)
    (q : Option Ident × List ColumnIdent → Constraint) :
    L.AlikeAt t t' Eq
      (if d.hasInlineIndex then
        Parser.advance >>= fun _ => withQuoteHint t.literal Parser.inlineIndex >>= fun x =>
          Pure.pure (q x)
      else Parser.fail .tableConstraint .tableConstraint)
      (if d.hasInlineIndex then
        Parser.advance >>= fun _ => withQuoteHint t'.literal Parser.inlineIndex >>= fun x =>
          Pure.pure (q x)
      else Parser.fail .tableConstraint .tableConstraint) := by
  split
  · refine .advance hk (Alike.bind (Lawful.quoteHint ht hk.1 inlineIndex) fun x _ hx => ?_)
    exact hx ▸ pure _
  · exact .of (fail _ _)

theorem tableConstraint (table : ObjectName) :
    L.Respects (Parser.tableConstraint d table) := by
  refine bind constraintName? fun name => Alike.current fun t t' ht => ?_
  rw [(Lawful.reads ht).keyword?_eq]
  split
  · rename_i hk
    exact .advance (Token.keyword?_ne hk) (bind (expectKeyword _ _) fun _ =>
      bind (columnList _) fun _ => pure _)
  · rename_i hk
    exact .advance (Token.keyword?_ne hk) (bind (expectKeyword _ _) fun _ =>
      bind (columnList _) fun _ => foreignKey _ _ _)
  · rename_i hk
    exact .advance (Token.keyword?_ne hk) (bind uniqueIndexName? fun _ =>
      bind (columnList _) fun _ => pure _)
  · rename_i hk
    refine .advance (Token.keyword?_ne hk) (Alike.bind checkBody fun body body' hbody => ?_)
    rw [hbody.1, hbody.2]
    exact pure _
  · rename_i hk
    exact inlineBranch ht (Token.keyword?_ne hk) _
  · rename_i hk
    exact inlineBranch ht (Token.keyword?_ne hk) _
  · exact .of (fail _ _)

theorem tableElement (table : ObjectName) : L.Respects (Parser.tableElement d table) := by
  refine Alike.current fun t t' ht => .of ?_
  rw [(Lawful.reads ht).startsTableConstraint_eq]
  split
  · exact bind (tableConstraint table) fun _ => pure _
  · exact bind (columnDefinition table) fun _ => pure _

theorem tableElements (table : ObjectName) : L.Respects (Parser.tableElements d table) := by
  refine bind (check (by simp [Plain])) fun found => ?_
  split
  · exact pure []
  · exact commaSeparated (tableElement table)

theorem optionValue : L.Alike L.Values Parser.optionValue Parser.optionValue := by
  refine Alike.current fun t t' ht => ?_
  have hvalue : ∀ {v v' : Ident}, optionValue? t = some v → optionValue? t' = some v' →
      L.Values v v' := by
    intro v v' hv hv'
    have hrel := Lawful.value ht
    rw [hv, hv'] at hrel
    exact Option.rel_some_some.mp hrel
  obtain ⟨hsame, -⟩ | ⟨hend, hsemicolon⟩ := Lawful.reads ht
  · unfold optionValue? at hvalue
    rw [hsame] at hvalue ⊢
    generalize hkind : t.kind = kind at hvalue ⊢
    have hadvance {f : Token → Ident} (hf : L.Values (f t) (f t'))
        (hne : kind ≠ .endOfInput ∧ kind ≠ .illegal) :
        L.AlikeAt t t' L.Values (Parser.advance >>= fun t => Pure.pure (f t))
          (Parser.advance >>= fun t => Pure.pure (f t)) :=
      .advance (hkind ▸ hne) (.pure hf)
    cases kind with
    | quotedIdentifier q => exact hadvance (hvalue rfl rfl) (by simp)
    | identifier => exact hadvance (hvalue rfl rfl) (by simp)
    | keyword k => exact hadvance (hvalue rfl rfl) (by simp)
    | number => exact hadvance (hvalue rfl rfl) (by simp)
    | string => exact hadvance (hvalue rfl rfl) (by simp)
    | _ => exact .of (fail _ _)
  · rw [hend, hsemicolon]
    exact .of (fail _ _)

theorem tableOption? : L.Alike (Option.Rel (TableOption.Like L.Values)) (Parser.tableOption? d)
    (Parser.tableOption? d) := by
  refine bind (Lawful.optionName d) fun name => ?_
  split
  · exact .pure .none
  · split
    · exact bind (consumeSymbol (by simp)) fun _ => Alike.bind optionValue fun _ _ hvalue =>
        Alike.bind (consumeSymbol (by simp)) fun _ _ _ => .pure (.some ⟨hvalue, rfl⟩)
    · exact fail _ _

theorem createTable : L.Alike (CreateTable.Like L.Values) (Parser.createTable d)
    (Parser.createTable d) :=
  bind (ifNotExists _) fun _ => bind (objectName _) fun name =>
    bind (Alike.inParens _ _ (tableElements name)) fun _ =>
      Alike.bind (Lawful.many tableOption?) fun _ _ hoptions => .pure ⟨hoptions, rfl⟩

end Tables

section Statements

theorem indexMethod? : L.Respects Parser.indexMethod? := by
  refine bind (consumeKeyword _) fun found => ?_
  cases found with
  | true => exact bind (ident _) fun _ => pure _
  | false => exact pure none

theorem indexPredicate? : L.Respects Parser.indexPredicate? := by
  refine bind (consumeKeyword _) fun found => ?_
  cases found with
  | true => exact bind (expr _ _) fun _ => pure _
  | false => exact pure none

theorem createIndex (isUnique : Bool) : L.Respects (Parser.createIndex isUnique) :=
  bind (ifNotExists _) fun _ => bind (objectName _) fun _ => bind (expectKeyword _ _) fun _ =>
    bind (objectName _) fun _ => bind indexMethod? fun _ => bind (columnList _) fun _ =>
      bind indexPredicate? fun _ => pure _

theorem create : L.Alike (Statement.Like L.Values) (Parser.create d) (Parser.create d) := by
  refine bind (expectKeyword _ _) fun _ => bind (consumeKeyword _) fun found => ?_
  cases found with
  | true =>
      exact bind (expectKeyword _ _) fun _ => bind (createIndex true) fun _ => .pure rfl
  | false =>
      refine bind (consumeKeyword _) fun found => ?_
      cases found with
      | true => exact bind (createIndex false) fun _ => .pure rfl
      | false =>
          refine bind (consumeKeyword _) fun found => ?_
          cases found with
          | true => exact Alike.bind createTable fun _ _ htable => .pure htable
          | false => exact fail _ _

theorem addedColumn (table : ObjectName) : L.Respects (Parser.addedColumn d table) :=
  bind (columnDefinition table) fun _ => pure _

theorem columnChange : L.Respects (Parser.columnChange d) := by
  refine Alike.current fun t t' ht => ?_
  rw [(Lawful.reads ht).keyword?_eq]
  split
  · rename_i hk
    refine .advance (Token.keyword?_ne hk) (bind (consumeKeyword _) fun found => ?_)
    cases found with
    | true => exact bind (expectKeyword _ _) fun _ => bind dataType fun _ => pure _
    | false =>
        refine bind (consumeKeyword _) fun found => ?_
        cases found with
        | true => exact bind (expr _ _) fun _ => pure _
        | false =>
            refine bind (consumeKeyword _) fun found => ?_
            cases found with
            | true => exact bind (expectKeyword _ _) fun _ => pure _
            | false => exact fail _ _
  · rename_i hk
    exact .advance (Token.keyword?_ne hk) (bind dataType fun _ => pure _)
  · rename_i hk
    refine .advance (Token.keyword?_ne hk) (bind (consumeKeyword _) fun found => ?_)
    cases found with
    | true => exact pure _
    | false =>
        refine bind (consumeKeyword _) fun found => ?_
        cases found with
        | true => exact bind (expectKeyword _ _) fun _ => pure _
        | false => exact fail _ _
  · exact .of (fail _ _)

theorem addChange (table : ObjectName) : L.Respects (Parser.addChange d table) := by
  refine bind (consumeKeyword _) fun found => ?_
  cases found with
  | true => exact addedColumn table
  | false =>
      refine Alike.current fun t t' ht => .of ?_
      rw [(Lawful.reads ht).startsTableConstraint_eq]
      split
      · exact bind (tableConstraint table) fun _ => bind Lawful.notValid fun _ => pure _
      · exact addedColumn table

theorem dropChange : L.Respects Parser.dropChange := by
  refine bind (consumeKeyword _) fun found => ?_
  cases found with
  | true => exact bind (ident _) fun _ => pure _
  | false =>
      refine bind (consumeKeyword _) fun found => ?_
      cases found with
      | true => exact bind (ident _) fun _ => pure _
      | false => exact fail _ _

theorem alterChange : L.Respects (Parser.alterChange d) :=
  bind (consumeKeyword _) fun _ => bind (ident _) fun _ => bind columnChange fun _ => pure _

theorem modifyChange (table : ObjectName) : L.Respects (Parser.modifyChange d table) := by
  refine bind (consumeKeyword _) fun _ => Alike.current fun t t' _ s s' hs hcurrent hcurrent' => ?_
  subst hcurrent hcurrent'
  refine Alike.bind (columnDefinition table) (fun definition _ hdefinition => ?_) s s' hs
  subst hdefinition
  split
  · exact pure _
  · exact Lawful.onModify hs _

theorem renameChange : L.Respects Parser.renameChange := by
  refine bind (consumeKeyword _) fun found => ?_
  cases found with
  | true => exact bind (ident _) fun _ => pure _
  | false =>
      refine bind (consumeKeyword _) fun found => ?_
      cases found with
      | true =>
          exact bind (ident _) fun _ => bind (expectKeyword _ _) fun _ => bind (ident _) fun _ => pure _
      | false =>
          refine bind (consumeKeyword _) fun found => ?_
          cases found with
          | true =>
              exact bind (ident _) fun _ => bind (expectKeyword _ _) fun _ =>
                bind (ident _) fun _ => pure _
          | false => exact fail _ _

theorem tableChanges (table : ObjectName) : L.Respects (Parser.tableChanges d table) := by
  refine Alike.current fun t t' ht => ?_
  rw [(Lawful.reads ht).keyword?_eq]
  split
  · rename_i hk
    exact .advance (Token.keyword?_ne hk) (addChange table)
  · rename_i hk
    exact .advance (Token.keyword?_ne hk) (bind dropChange fun _ => pure _)
  · rename_i hk
    exact .advance (Token.keyword?_ne hk) (bind alterChange fun _ => pure _)
  · rename_i hk
    exact .advance (Token.keyword?_ne hk) (bind (modifyChange table) fun _ => pure _)
  · rename_i hk
    exact .advance (Token.keyword?_ne hk) (bind renameChange fun _ => pure _)
  · exact .of (fail _ _)

theorem alterTable : L.Alike (List.Forall₂ (Statement.Like L.Values)) (Parser.alterTable d)
    (Parser.alterTable d) := by
  refine bind (expectKeyword _ _) fun _ => bind (expectKeyword _ _) fun _ =>
    bind (objectName _) fun name => bind (commaSeparated (tableChanges name)) fun changes => .pure ?_
  rw [List.forall₂_same, List.forall_mem_map]
  exact fun _ _ => rfl

theorem drop : L.Alike (Statement.Like L.Values) Parser.drop Parser.drop := by
  refine bind (expectKeyword _ _) fun _ => bind (consumeKeyword _) fun found => ?_
  cases found with
  | true => exact bind (ifExists _) fun _ => bind (objectName _) fun _ => .pure rfl
  | false =>
      refine bind (consumeKeyword _) fun found => ?_
      cases found with
      | true =>
          refine bind (ifExists _) fun _ => bind (objectName _) fun _ =>
            bind (consumeKeyword _) fun found => ?_
          cases found with
          | true => exact bind (objectName _) fun _ => .pure rfl
          | false => exact .pure rfl
      | false => exact fail _ _

theorem statementEnd : L.Respects Parser.statementEnd := by
  refine Alike.current fun t t' ht => .of ?_
  have hend : (t'.kind == .symbol .semicolon || t'.kind == .endOfInput) =
      (t.kind == .symbol .semicolon || t.kind == .endOfInput) := by
    obtain ⟨hkind, -⟩ | ⟨hend, hsemicolon⟩ := Lawful.reads ht
    · rw [hkind]
    · rw [hend, hsemicolon]
      rfl
  dsimp only
  rw [hend]
  split
  · exact pure ()
  · exact fail _ _

-- A statement that has begun is read alike. The end of the text is another matter.
theorem statements? {s s' : Cursor} (hs : L.Cursors s s') (hkind : s'.current.kind = s.current.kind) :
    L.Outcome (Option.Rel (List.Forall₂ (Statement.Like L.Values))) s (Parser.statements? d s)
      (Parser.statements? d s') := by
  refine AlikeAt.current ?_ s s' hs rfl rfl
  rw [hkind]
  split
  · exact .of (.pure .none)
  · rename_i hkind
    exact .advance (by simp [hkind]) (.pure (.some .nil))
  · exact .of (Alike.bind create fun _ _ hstatement => Alike.bind statementEnd fun _ _ _ =>
      .pure (.some (.cons hstatement .nil)))
  · exact .of (Alike.bind alterTable fun _ _ hstatements => Alike.bind statementEnd fun _ _ _ =>
      .pure (.some hstatements))
  · exact .of (Alike.bind drop fun _ _ hstatement => Alike.bind statementEnd fun _ _ _ =>
      .pure (.some (.cons hstatement .nil)))
  · exact .of (fail _ _)

end Statements

end Parser.Likeness.Respects

end SchemaDiff
