import SchemaDiff.Proofs.Reference

namespace SchemaDiff

open SchemaDiff.Parser

variable {d : Dialect}

namespace Rule

-- The rule is one that the dialect has, and it can be read again from its text.
def Readable (d : Dialect) : Rule → Prop
  | primaryKey columns => ColumnIdent.ListReadable d columns
  | foreignKey columns target => ColumnIdent.ListReadable d columns ∧ target.Readable d
  | unique columns => ColumnIdent.ListReadable d columns ∧ d.uniqueStyle = .constraint
  | check body => body.Readable d .parens
  | index true columns => ColumnIdent.ListReadable d columns ∧ d.uniqueStyle = .index
  | index false columns => ColumnIdent.ListReadable d columns ∧ d.hasInlineIndex = true

-- No two tokens of a check become one when it is printed.
def Spaced (d : Dialect) : Rule → Prop
  | check body => body.Spaced d
  | _ => True

instance (d : Dialect) : DecidablePred (Spaced d)
  | check body => inferInstanceAs (Decidable (body.Spaced d))
  | primaryKey _ | foreignKey _ _ | unique _ | index _ _ => isTrue trivial

def indexKeywords (isUnique : Bool) : List Keyword :=
  if isUnique then [.unique, .index] else [.index]

def faces (d : Dialect) : Rule → List Face
  | primaryKey columns => .keyword .primary :: .keyword .key :: ColumnIdent.listFaces d columns
  | foreignKey columns target => .keyword .foreign :: .keyword .key ::
      (ColumnIdent.listFaces d columns ++ .keyword .references :: target.faces d)
  | unique columns => .keyword .unique :: ColumnIdent.listFaces d columns
  | check body =>
      .keyword .check :: .symbol .leftParen :: (body.faces d ++ [.symbol .rightParen])
  | index isUnique columns =>
      (indexKeywords isUnique).map Face.keyword ++ ColumnIdent.listFaces d columns

theorem prints_indexKind (isUnique : Bool) :
    Prints d (indexKind isUnique) ((indexKeywords isUnique).map Face.keyword) := by
  cases isUnique with
  | true => exact .commonPhrase [.unique, .index] (by decide)
  | false => exact .commonPhrase [.index] (by decide)

theorem Readable.listReadable {isUnique : Bool} {columns : List ColumnIdent}
    (h : (index isUnique columns).Readable d) : ColumnIdent.ListReadable d columns := by
  cases isUnique <;> exact h.1

theorem Readable.prints {r : Rule} (h : r.Readable d) (hs : r.Spaced d) :
    Prints d r.sql (r.faces d) := by
  have hclosed : Prints d ")" [.symbol .rightParen] := Prints.empty.rightParen
  cases r with
  | primaryKey columns =>
      exact .lead "PRIMARY KEY " [.primary, .key] rfl (by decide) (ColumnIdent.ListReadable.prints h)
  | foreignKey columns target =>
      obtain ⟨hreferences, hbehind⟩ :=
        h.2.prints.spacedLead " REFERENCES " [.references] rfl (by decide)
      have hall := (h.1.prints.append hreferences hbehind).lead "FOREIGN KEY " [.foreign, .key] rfl
        (by decide)
      simpa [sql, faces, String.append_assoc] using hall
  | unique columns => exact .lead "UNIQUE " [.unique] rfl (by decide) h.1.prints
  | check body =>
      have hbody := (Expr.Readable.prints h hs).append hclosed
        (separates_of_head (c := ')') rfl (by decide))
      have hall := hbody.leftParen.lead "CHECK " [.check] rfl (by decide)
      have htext : (check body).sql = "CHECK " ++ ("(" ++ (body.sql ++ ")")) := by
        simp only [sql, ← String.append_assoc]
        rfl
      rw [htext]
      exact hall
  | index isUnique columns =>
      have hall := (prints_indexKind isUnique).append (h.listReadable.prints (d := d)).space
        (separates_space _)
      simpa [sql, faces, String.append_assoc] using hall

end Rule

namespace Constraint

structure Readable (d : Dialect) (c : Constraint) : Prop where
  name : c.name.Readable d
  rule : c.rule.Readable d

def faces (d : Dialect) (c : Constraint) : List Face :=
  match c.rule with
  | .index isUnique columns => (Rule.indexKeywords isUnique).map Face.keyword ++
      c.name.face d :: ColumnIdent.listFaces d columns
  | rule => .keyword .constraint :: c.name.face d :: rule.faces d

theorem Readable.prints {c : Constraint} (h : c.Readable d) (hs : c.rule.Spaced d) :
    Prints d c.sql (c.faces d) := by
  obtain ⟨name, rule⟩ := c
  have hname := h.name.prints
  cases hrule : rule with
  | index isUnique columns =>
      rw [hrule] at h
      have hindex := (Rule.prints_indexKind (d := d) isUnique).append
        ((hname.append (h.rule.listReadable.prints (d := d)).space (separates_space _)).space)
        (separates_space _)
      simpa [sql, faces, String.append_assoc] using hindex
  | _ =>
      have hconstraint := (hname.append (h.rule.prints hs).space (separates_space _)).lead
        "CONSTRAINT " [.constraint] rfl (by decide)
      simpa [sql, faces, hrule, String.append_assoc] using hconstraint

end Constraint

namespace Parser

theorem keyword?_of_face {t : Token} {f : Face} {k : Keyword} (h : t.face = f)
    (hk : f.kind = .keyword k) : t.keyword? = some k := by
  have hkind : t.kind = f.kind := congrArg Face.kind h
  rw [Token.keyword?, hkind, hk]

theorem steps_constraintName {i : Ident} (h : i.Readable d) (Y : List Face) :
    Steps constraintName? (.keyword .constraint :: i.face d :: Y) (some i) Y :=
  .bind (.consume_true rfl) (.bind (steps_ident h _ Y) (.pure _ Y))

theorem steps_noConstraintName {Y : List Face}
    (hY : (Face.first Y).kind ≠ .keyword .constraint) : Steps constraintName? Y none Y :=
  .bind (.consume_false hY) (.pure none Y)

theorem steps_indexName {i : Ident} (h : i.Readable d) (Y : List Face) :
    Steps indexName? (i.face d :: Y) (some i) Y := by
  refine .bind (.check _) ?_
  have hparen : ((Face.first (i.face d :: Y)).kind == .symbol .leftParen) = false := by
    refine beq_false_of_ne fun hk => ?_
    have hname := h.isNameKind
    rw [Face.first_cons] at hk
    rw [hk] at hname
    exact Bool.false_ne_true hname
  rw [hparen]
  exact .bind (steps_ident h _ Y) (.pure _ Y)

variable {table : ObjectName} {name : Ident} {columns : List ColumnIdent} {Y : List Face}

theorem steps_primaryKey (hname : name.Readable d) (h : ColumnIdent.ListReadable d columns) :
    Steps (tableConstraint d table)
      (.keyword .constraint :: name.face d :: ((Rule.primaryKey columns).faces d ++ Y))
      ⟨name, .primaryKey columns⟩ Y := by
  refine .bind (steps_constraintName hname _) (.current fun t ht => ?_)
  rw [keyword?_of_face ht rfl]
  exact .advance fun _ _ => .bind (.expectKeyword rfl) (.bind (h.steps _ Y) (.pure _ Y))

theorem steps_foreignKey {target : Reference} (hname : name.Readable d)
    (h : ColumnIdent.ListReadable d columns) (htarget : target.Readable d)
    (hY : Reference.Follows Y) :
    Steps (tableConstraint d table)
      (.keyword .constraint :: name.face d :: ((Rule.foreignKey columns target).faces d ++ Y))
      ⟨name, .foreignKey columns target⟩ Y := by
  simp only [Rule.faces, List.cons_append, List.append_assoc]
  refine .bind (steps_constraintName hname _) (.current fun t ht => ?_)
  rw [keyword?_of_face ht rfl]
  exact .advance fun _ _ => .bind (.expectKeyword rfl) <| .bind (h.steps _ _)
    (.bind (htarget.steps hY) (.pure _ Y))

theorem steps_unique (hname : name.Readable d) (h : ColumnIdent.ListReadable d columns)
    (hstyle : d.uniqueStyle = .constraint) :
    Steps (tableConstraint d table)
      (.keyword .constraint :: name.face d :: ((Rule.unique columns).faces d ++ Y))
      ⟨name, .unique columns⟩ Y := by
  refine .bind (steps_constraintName hname _) (.current fun t ht => ?_)
  rw [keyword?_of_face ht rfl]
  have hparen : ∀ k, (Face.first (ColumnIdent.listFaces d columns ++ Y)).kind ≠ .keyword k := by
    simp [ColumnIdent.listFaces, Face.symbol]
  refine .advance fun _ _ => .bind (.bind (.bind (.consume_false (hparen .key))
    (.consume_false (hparen .index))) (.pure none _)) (.bind (h.steps _ Y) ?_)
  simpa [uniqueConstraint, hstyle] using Steps.pure (⟨name, .unique columns⟩ : Constraint) Y

theorem steps_check {body : Expr} (hname : name.Readable d) (h : body.Readable d .parens) :
    Steps (tableConstraint d table)
      (.keyword .constraint :: name.face d :: ((Rule.check body).faces d ++ Y))
      ⟨name, .check body⟩ Y := by
  simp only [Rule.faces, List.cons_append, List.append_assoc]
  refine .bind (steps_constraintName hname _) (.current fun t ht => ?_)
  rw [keyword?_of_face ht rfl]
  refine .advance fun _ _ => ?_
  refine steps_checkBody h fun tokens htokens => ?_
  rw [← htokens]
  exact .pure _ Y

theorem steps_uniqueIndex (hname : name.Readable d) (h : ColumnIdent.ListReadable d columns)
    (hstyle : d.uniqueStyle = .index) :
    Steps (tableConstraint d table) (.keyword .unique :: .keyword .index :: name.face d ::
      (ColumnIdent.listFaces d columns ++ Y)) ⟨name, .index true columns⟩ Y := by
  refine .bind (steps_noConstraintName (by simp [Face.keyword])) (.current fun t ht => ?_)
  rw [keyword?_of_face ht rfl]
  refine .advance fun _ _ => .bind (.bind (.bind (.consume_false (by simp [Face.keyword]))
    (.consume_true rfl)) (steps_indexName hname _)) (.bind (h.steps _ Y) ?_)
  simpa [uniqueConstraint, hstyle] using Steps.pure (⟨name, .index true columns⟩ : Constraint) Y

theorem steps_inlineIndex (hname : name.Readable d) (h : ColumnIdent.ListReadable d columns)
    (hinline : d.hasInlineIndex = true) :
    Steps (tableConstraint d table) (.keyword .index :: name.face d ::
      (ColumnIdent.listFaces d columns ++ Y)) ⟨name, .index false columns⟩ Y := by
  refine .bind (steps_noConstraintName (by simp [Face.keyword])) (.current fun t ht => ?_)
  rw [keyword?_of_face ht rfl]
  simp only [hinline, if_true]
  refine .advance fun _ _ => .bind (Steps.withQuoteHint _ (.bind (steps_indexName hname _)
    (.bind (h.steps _ Y) (.pure _ Y)))) ?_
  exact .pure _ Y

end Parser

theorem Constraint.Readable.steps {c : Constraint} (h : c.Readable d) {table : ObjectName}
    {Y : List Face} (hY : Reference.Follows Y) :
    Steps (tableConstraint d table) (c.faces d ++ Y) c Y := by
  obtain ⟨name, rule⟩ := c
  obtain ⟨hname, hrule⟩ := h
  cases rule with
  | primaryKey columns => exact steps_primaryKey hname hrule
  | foreignKey columns target => exact steps_foreignKey hname hrule.1 hrule.2 hY
  | unique columns => exact steps_unique hname hrule.1 hrule.2
  | check body => exact steps_check hname hrule
  | index isUnique columns =>
      cases isUnique with
      | true => exact steps_uniqueIndex hname hrule.1 hrule.2
      | false => exact steps_inlineIndex hname hrule.1 hrule.2

namespace Parser

theorem readable_getD {o : Option Ident} (h : ∀ i ∈ o, i.Readable d) (name : String) :
    (o.getD (.derived d name)).Readable d := by
  cases o with
  | none => exact Ident.readable_derived d name
  | some i => exact h i rfl

theorem yields_constraintName? : Yields d constraintName? fun o => ∀ i ∈ o, i.Readable d := by
  refine .bind .consume fun found _ => ?_
  cases found with
  | true => exact .bind yields_ident fun i hi => .pure (by simpa using hi)
  | false => exact .pure (by simp)

theorem yields_indexName? : Yields d indexName? fun o => ∀ i ∈ o, i.Readable d := by
  refine .bind .check fun found _ => ?_
  cases found with
  | true => exact .pure (by simp)
  | false => exact .bind yields_ident fun i hi => .pure (by simpa using hi)

theorem yields_uniqueIndexName? :
    Yields d uniqueIndexName? fun o => ∀ i ∈ o, i.Readable d := by
  refine .bind (P := fun _ => True) (.bind .consume fun key _ => ?_) fun found _ => ?_
  · cases key with
    | true => exact .pure trivial
    | false => exact .consume
  · cases found with
    | true => exact yields_indexName?
    | false => exact .pure (by simp)

theorem yields_withQuoteHint {α : Type} {body : Parser α} {P : α → Prop} {word : String}
    (h : Yields d body P) : Yields d (withQuoteHint word body) P := by
  intro s a s' hs hp
  refine h s a s' hs ?_
  unfold withQuoteHint at hp
  split at hp
  · cases hp
  · exact hp

theorem yields_foreignKey {table : ObjectName} {name : Option Ident} {columns : List ColumnIdent}
    (hname : ∀ i ∈ name, i.Readable d) (h : ColumnIdent.ListReadable d columns) :
    Yields d (foreignKey d table name columns) (Constraint.Readable d) :=
  .bind yields_reference fun _ htarget => .pure ⟨readable_getD hname _, h, htarget⟩

theorem readable_uniqueConstraint {table : ObjectName} {name : Option Ident}
    {columns : List ColumnIdent} (hname : ∀ i ∈ name, i.Readable d)
    (h : ColumnIdent.ListReadable d columns) :
    (uniqueConstraint d table name columns).Readable d := by
  refine ⟨readable_getD hname _, ?_⟩
  unfold uniqueConstraint
  cases hstyle : d.uniqueStyle with
  | constraint => exact ⟨h, hstyle⟩
  | index => exact ⟨h, hstyle⟩

theorem readable_orElse {o o' : Option Ident} (h : ∀ i ∈ o, i.Readable d)
    (h' : ∀ i ∈ o', i.Readable d) : ∀ i ∈ (o <|> o'), i.Readable d := by
  cases o with
  | none => exact h'
  | some i => exact h

theorem yields_inlineIndex : Yields d inlineIndex fun p =>
    (∀ i ∈ p.1, i.Readable d) ∧ ColumnIdent.ListReadable d p.2 :=
  .bind yields_indexName? fun _ hname => .bind ColumnIdent.yields_columnList fun _ hcolumns =>
    .pure ⟨hname, hcolumns⟩

theorem yields_tableConstraint {table : ObjectName} :
    Yields d (tableConstraint d table) (Constraint.Readable d) := by
  refine .bind yields_constraintName? fun name hname => .current fun t _ => ?_
  split
  · exact .advance (.bind .expectKeyword fun _ _ => .bind ColumnIdent.yields_columnList
      fun columns hcolumns => .pure ⟨readable_getD hname _, hcolumns⟩)
  · exact .advance (.bind .expectKeyword fun _ _ => .bind ColumnIdent.yields_columnList
      fun columns hcolumns => yields_foreignKey hname hcolumns)
  · exact .advance (.bind yields_uniqueIndexName? fun index hindex =>
      .bind ColumnIdent.yields_columnList fun columns hcolumns =>
      .pure (readable_uniqueConstraint (readable_orElse hname hindex) hcolumns))
  · exact .advance (.bind yields_checkBody fun body hbody => .pure ⟨readable_getD hname _, hbody⟩)
  -- `INDEX` and `KEY` open the same definition.
  iterate 2
    split
    · rename_i hinline
      exact .advance (.bind (yields_withQuoteHint yields_inlineIndex) fun p hp =>
        .pure ⟨readable_getD (readable_orElse hname hp.1) _, hp.2, hinline⟩)
    · exact .of .fail
  · exact .of .fail

end Parser

end SchemaDiff
