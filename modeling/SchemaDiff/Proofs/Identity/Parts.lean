import SchemaDiff.Proofs.Identity.Decoding
import SchemaDiff.Proofs.Identity.Unquoted

namespace SchemaDiff

open SchemaDiff.Parser

variable {d : Dialect}

theorem Ident.decodes :
    Decodes Ident.name Ident.unquoted Ident.Clear (StopsAt [' ', ',', '(', ')']) :=
  .of_stops (fun _ h => h.plain) fun _ _ _ _ h => congrArg Ident.bare h

theorem Ident.Clear.exists_head {i : Ident} (h : i.Clear) :
    ∃ c cs, i.name.toList = c :: cs ∧ c ≠ ')' := by
  obtain ⟨c, cs, hname⟩ := List.exists_cons_of_ne_nil
    (fun hnil => h.ne_empty (String.toList_eq_nil_iff.mp hnil))
  exact ⟨c, cs, hname, fun hparen => h.plain ')' (by simp) (by simp [hname, hparen])⟩

-- A separator is a token of its own, whatever stands behind it.
theorem behind_symbol {s : Symbol} (hs : s ∈ [Symbol.comma, .rightParen, .semicolon])
    {ends : List Face → Prop} (h : ∀ more, ends (.symbol s :: more)) (cs : List Char) :
    Behind d ends (s.text.toList ++ cs) := by
  obtain ⟨more, hmore⟩ := exists_lexesTo d cs
  simp only [List.mem_cons, List.not_mem_nil, or_false] at hs
  refine ⟨?_, _, .cons (f := .symbol s) (Face.genuine_symbol ?_) ?_ hmore, h more⟩
  · rcases hs with rfl | rfl | rfl <;> rfl
  · rcases hs with rfl | rfl | rfl <;> exact .inl rfl
  · rcases hs with rfl | rfl | rfl <;> trivial

-- What follows an entry of a table.
theorem behind_entry {rest : List Char} (h : StopsAt [',', ')'] rest) :
    Behind d Face.EndsEntry rest := by
  obtain ⟨c, hc, hhead⟩ := h
  obtain ⟨cs, rfl⟩ := List.head?_eq_some_iff.mp hhead
  simp only [List.mem_cons, List.not_mem_nil, or_false] at hc
  rcases hc with rfl | rfl
  · exact behind_symbol (s := .comma) (by simp) (fun _ => by simp [Face.EndsEntry, Face.symbol]) cs
  · exact behind_symbol (s := .rightParen) (by simp)
      (fun _ => by simp [Face.EndsEntry, Face.symbol]) cs

-- What follows a statement.
theorem behind_statement {rest : List Char} (h : StopsAt [';'] rest) :
    Behind d (fun Y => (Face.first Y).kind = .symbol .semicolon) rest := by
  obtain ⟨c, hc, hhead⟩ := h
  obtain ⟨cs, rfl⟩ := List.head?_eq_some_iff.mp hhead
  obtain rfl := List.mem_singleton.mp hc
  exact behind_symbol (s := .semicolon) (by simp) (fun _ => rfl) cs

namespace ColumnIdent

theorem decodes : Decodes identity unquoted (·.ident.Clear) (StopsAt [',', ')']) := by
  refine .of_stops (fun c hc => ?_) fun c c' hc hc' heq => ?_
  · simpa using notMem_identity hc.plain
  · obtain ⟨hname, horder⟩ := Prod.mk.inj (identity_inj hc.plain hc'.plain heq)
    simp only [unquoted, Ident.unquoted, hname, horder]

theorem decodes_list :
    Decodes (listSpelled Ident.name) (·.map unquoted) ColumnIdent.ListClear fun _ => True := by
  refine (Decodes.lead "(" (decodes.separated fun c hc => ?_)).of_eq fun columns => ?_
  · obtain ⟨first, cs, hname, hfirst⟩ := hc.exists_head
    cases ho : c.order <;>
      exact ⟨first, _, by simp [identity, spelled, ho, hname]; rfl, hfirst⟩
  · rw [listSpelled, String.append_assoc]
    rfl

end ColumnIdent

-- An expression ends where the parser finds its end, and its tokens are the names.
theorem Expr.decodes (place : ExprPlace) :
    Decodes identity unquoted (fun e => e.Readable d place ∧ e.Clear d)
      (Behind d (Ending place)) := by
  refine .of_steps (p := expr place .defaultExpression) (T := fun e => e.unquoted.faces d)
    (V := fun e => e.unquoted.reread d) ?_ ?_ ?_ ?_
  · rintro e ⟨hr, hc⟩
    rw [identity_eq]
    exact (hc.bounded hr).prints hc.spaced
  · rintro e Y ⟨hr, hc⟩ hY
    exact steps_bounded (hc.bounded hr) _ hY
  · exact fun e e' _ _ hfaces _ => unquoted_of_faces hfaces
  · intro e e' _ _ hsame
    rw [identity_eq, identity_eq, hsame]

namespace Column

-- What the identity says behind the name of the column and a blank.
def body (c : Column) : String :=
  c.dataType.sql ++ String.join ((ColumnClause.ofColumn c.unquoted).map ColumnClause.text)

theorem identity_eq (c : Column) : c.identity = c.name.name ++ (" " ++ c.body) := by
  rcases c with ⟨name, type, _ | _, _ | e, _ | _⟩ <;>
    simp [identity, spelled, body, unquoted, ColumnClause.ofColumn, ColumnClause.text,
      ← Expr.identity_eq, Expr.identity, String.append_assoc]

theorem ofColumn_inj {c c' : Column} (h : ColumnClause.ofColumn c = ColumnClause.ofColumn c') :
    c.notNull = c'.notNull ∧ c.default = c'.default ∧ c.autoIncrement = c'.autoIncrement := by
  rcases c with ⟨name, type, _ | _, _ | e, _ | _⟩ <;>
    rcases c' with ⟨name', type', _ | _, _ | e', _ | _⟩ <;> simp_all [ColumnClause.ofColumn]

-- The column but for its name.
def attributes (c : Column) : DataType × Bool × Option Expr × Bool :=
  (c.dataType, c.notNull, c.default.map Expr.unquoted, c.autoIncrement)

theorem attributes_of_faces {c c' : Column} (hnull : c.notNull = c'.notNull)
    (hauto : c.autoIncrement = c'.autoIncrement) (hsome : c.default.isSome = c'.default.isSome)
    (h : (ColumnClause.ofColumn c.unquoted).flatMap (ColumnClause.faces d) =
      (ColumnClause.ofColumn c'.unquoted).flatMap (ColumnClause.faces d)) :
    c.default.map Expr.unquoted = c'.default.map Expr.unquoted := by
  cases hdefault : c.default with
  | none =>
      rw [hdefault] at hsome
      rw [Option.isSome_eq_false_iff.mp hsome.symm |> Option.isNone_iff_eq_none.mp]
  | some e =>
      rw [hdefault] at hsome
      obtain ⟨e', hdefault'⟩ := Option.isSome_iff_exists.mp hsome.symm
      simp only [ColumnClause.ofColumn, unquoted, hdefault, hdefault', hnull, hauto,
        List.flatMap_append, List.append_cancel_left_eq, List.append_cancel_right_eq] at h
      rw [hdefault']
      exact congrArg some (Expr.unquoted_of_faces (by simpa [ColumnClause.faces] using h))

theorem decodes_body : Decodes body attributes (fun c => c.Readable d ∧ c.Clear d)
    (Behind d Face.EndsEntry) := by
  refine .of_steps (p := do
      let type ← Parser.dataType d
      let clauses ← many (columnClause? d (.ofIdent (.bare "")) (.bare ""))
      return (type, clauses))
    (T := fun c => c.dataType.faces d ++
      (ColumnClause.ofColumn c.unquoted).flatMap (ColumnClause.faces d))
    (V := fun c => (c.dataType, ColumnClause.ofColumn (c.unquoted.reread d))) ?_ ?_ ?_ ?_
  · rintro c ⟨hr, hc⟩
    obtain ⟨hclauses, hbehind⟩ := (hc.bounded hr).prints_clauses hc.spaced
    exact hr.dataType.prints.append hclauses hbehind
  · rintro c Y ⟨hr, hc⟩ hY
    rw [List.append_assoc]
    exact .bind (hr.dataType.steps (follows_clauses hY))
      (.bind ((hc.bounded hr).steps_clauses _ _ hY) (.pure _ Y))
  · rintro c c' - - hfaces hvalue
    obtain ⟨htype, hclauses⟩ := Prod.mk.inj hvalue
    obtain ⟨hnull, hdefault, hauto⟩ := ofColumn_inj hclauses
    have hsome : c.default.isSome = c'.default.isSome := by
      simpa [reread, unquoted] using congrArg Option.isSome hdefault
    rw [htype, List.append_cancel_left_eq] at hfaces
    have hdefaults : c.default.map Expr.unquoted = c'.default.map Expr.unquoted :=
      attributes_of_faces hnull hauto hsome hfaces
    simp only [attributes, htype, hdefaults, Prod.mk.injEq, true_and]
    exact ⟨hnull, hauto⟩
  · rintro ⟨name, type, notNull, default, autoIncrement⟩ ⟨name', type', notNull', default',
      autoIncrement'⟩ - - hsame
    simp only [attributes, Prod.mk.injEq] at hsame
    obtain ⟨rfl, rfl, hdefault, rfl⟩ := hsame
    simp only [body, ColumnClause.ofColumn, unquoted, hdefault]
    rfl

end Column

-- Comparisons do not see quotes.
theorem Column.demands_of_unquoted {c c' : Column} (h : c.unquoted = c'.unquoted) :
    c.dataType.sql = c'.dataType.sql ∧ c.notNull = c'.notNull ∧
      c.default.map Expr.identity = c'.default.map Expr.identity ∧
      c.autoIncrement = c'.autoIncrement := by
  have hdefault : ∀ c : Column, c.default.map Expr.identity =
      (c.default.map Expr.unquoted).map Expr.sql := by
    intro c
    simp [Function.comp_def, ← Expr.identity_eq]
  obtain ⟨-, htype, hnull, hunquoted, hauto⟩ := Column.mk.inj h
  exact ⟨congrArg DataType.sql htype, hnull, by rw [hdefault, hdefault, hunquoted], hauto⟩

-- Columns of one name are the same but for quotes if comparisons find no difference.
theorem Column.unquoted_eq_iff {c c' : Column} (h : c.Readable d ∧ c.Clear d)
    (h' : c'.Readable d ∧ c'.Clear d) (hname : c.name.name = c'.name.name) :
    c.unquoted = c'.unquoted ↔ c.dataType.sql = c'.dataType.sql ∧ c.notNull = c'.notNull ∧
      c.default.map Expr.identity = c'.default.map Expr.identity ∧
      c.autoIncrement = c'.autoIncrement := by
  have hbody : ∀ c : Column, c.body = c.dataType.sql ++ ((if c.notNull then " NOT NULL" else "") ++
      ((c.default.map Expr.identity).elim "" (" DEFAULT " ++ ·) ++
        if c.autoIncrement then " AUTO_INCREMENT" else "")) := by
    rintro ⟨name, type, _ | _, _ | e, _ | _⟩ <;>
      simp [body, unquoted, ColumnClause.ofColumn, ColumnClause.text, Expr.identity_eq]
  constructor
  · exact demands_of_unquoted
  · rintro ⟨htype, hnull, hidentity, hauto⟩
    have htext : c.body.toList ++ [')'] = c'.body.toList ++ [')'] := by
      simp only [hbody, htype, hnull, hidentity, hauto]
    have hend : Behind d Face.EndsEntry [')'] := behind_entry (stopsAt_cons (by simp))
    have hattributes := (decodes_body c c' _ _ h h' hend hend htext).1
    simp only [attributes, Prod.mk.injEq] at hattributes
    obtain ⟨htype, -, hdefault, -⟩ := hattributes
    simp only [unquoted, Ident.unquoted, hname, htype, hnull, hdefault, hauto]

namespace Reference

-- There are few actions, so that their texts can be compared one by one.
def actionChoices : List (Option ReferentialAction) :=
  none :: [.noAction, .restrict, .cascade, .setNull, .setDefault].map some

theorem mem_actionChoices (action : Option ReferentialAction) : action ∈ actionChoices := by
  rcases action with _ | _ | _ | _ | _ | _ <;> decide

def actionsText (onDelete onUpdate : Option ReferentialAction) : String :=
  onDelete.elim "" (" ON DELETE " ++ ·.sql) ++ onUpdate.elim "" (" ON UPDATE " ++ ·.sql)

theorem decodes_actions :
    Decodes actions (fun r => (r.onDelete, r.onUpdate)) Clear (StopsAt [',', ')']) := by
  have hfree : ∀ x ∈ actionChoices, ∀ y ∈ actionChoices,
      ',' ∉ (actionsText x y).toList ∧ ')' ∉ (actionsText x y).toList := by
    decide +kernel
  have hnodup : ((actionChoices.product actionChoices).map fun p => actionsText p.1 p.2).Nodup := by
    decide +kernel
  have hmem : ∀ r : Reference, (r.onDelete, r.onUpdate) ∈ actionChoices.product actionChoices :=
    fun r => List.pair_mem_product.mpr ⟨mem_actionChoices _, mem_actionChoices _⟩
  refine .of_stops (fun r _ => ?_) fun r r' _ _ => List.inj_on_of_nodup_map hnodup (hmem r) (hmem r')
  rw [List.forall_mem_cons, List.forall_mem_singleton]
  exact hfree _ (mem_actionChoices r.onDelete) _ (mem_actionChoices r.onUpdate)

theorem decodes : Decodes identity unquoted Clear (StopsAt [',', ')']) := by
  have htable := Ident.decodes.part (fun r : Reference => r.table.name) fun _ => Clear.table
  have hcolumns := ColumnIdent.decodes_list.part Reference.columns fun _ => Clear.columns
  have htail := (hcolumns.append decodes_actions fun _ _ _ _ => trivial).lead " "
  have hall := htable.append htail fun _ _ _ _ =>
    stopsAt_append (c := ' ') rfl (by simp)
  refine (hall.of_eq fun r => ?_).shows fun r r' _ _ hsame => ?_
  · simp [identity, ObjectName.identity, String.append_assoc]
  · simp only [Prod.mk.injEq] at hsame
    obtain ⟨hname, hcolumns, hdelete, hupdate⟩ := hsame
    simp only [unquoted, ObjectName.unquoted, hname, hcolumns, hdelete, hupdate]

end Reference

namespace Rule

theorem decodes_check : Decodes (fun e : Expr => "CHECK (" ++ (e.identity ++ ")")) Expr.unquoted
    (fun e => e.Readable d .parens ∧ e.Clear d) fun _ => True :=
  ((Expr.decodes .parens).trail ")" fun rest _ =>
    behind_symbol (s := .rightParen) (by simp) (fun _ => rfl) rest).lead "CHECK ("

theorem decodes_foreignKey : Decodes
    (fun k : List ColumnIdent × Reference => "FOREIGN KEY " ++
      (ColumnIdent.listSpelled Ident.name k.1 ++ (" REFERENCES " ++ k.2.identity)))
    (fun k => (k.1.map ColumnIdent.unquoted, k.2.unquoted))
    (fun k => ColumnIdent.ListClear k.1 ∧ k.2.Clear) (StopsAt [',', ')']) := by
  have hcolumns := ColumnIdent.decodes_list.part (G := fun k : List ColumnIdent × Reference =>
    ColumnIdent.ListClear k.1 ∧ k.2.Clear) Prod.fst fun _ h => h.1
  have htarget := Reference.decodes.part (G := fun k : List ColumnIdent × Reference =>
    ColumnIdent.ListClear k.1 ∧ k.2.Clear) Prod.snd fun _ h => h.2
  exact (hcolumns.append (htarget.lead " REFERENCES ") fun _ _ _ _ => trivial).lead "FOREIGN KEY "

theorem decodes : Decodes identity unquoted (fun r => r.Readable d ∧ r.Clear d)
    (StopsAt [',', ')']) := by
  have hlist : ∀ words : String, Decodes (fun columns => words ++
      ColumnIdent.listSpelled Ident.name columns) (·.map ColumnIdent.unquoted) ColumnIdent.ListClear
      fun _ => True :=
    fun words => ColumnIdent.decodes_list.lead words
  rintro r r' rest rest' ⟨hr, hc⟩ ⟨hr', hc'⟩ hrest hrest' heq
  have hfirst := congrArg (·[0]?) heq
  have heighth := congrArg (·[7]?) heq
  cases r with
  | primaryKey columns =>
      cases r' with
      | primaryKey columns' =>
          obtain ⟨hcolumns, htail⟩ := hlist "PRIMARY KEY " _ _ _ _ hc hc' trivial trivial heq
          exact ⟨congrArg primaryKey hcolumns, htail⟩
      | index isUnique columns' => cases isUnique <;> simp [identity, indexKind] at hfirst
      | _ => simp [identity] at hfirst
  | foreignKey columns target =>
      cases r' with
      | foreignKey columns' target' =>
          obtain ⟨hsame, htail⟩ := decodes_foreignKey (columns, target) (columns', target') _ _ hc hc'
            hrest hrest' (by simpa [identity, String.append_assoc] using heq)
          obtain ⟨hcolumns, htarget⟩ := Prod.mk.inj hsame
          exact ⟨by rw [unquoted, unquoted, hcolumns, htarget], htail⟩
      | index isUnique columns' => cases isUnique <;> simp [identity, indexKind] at hfirst
      | _ => simp [identity] at hfirst
  | unique columns =>
      cases r' with
      | unique columns' =>
          obtain ⟨hcolumns, htail⟩ := hlist "UNIQUE " _ _ _ _ hc hc' trivial trivial heq
          exact ⟨congrArg unique hcolumns, htail⟩
      | index isUnique columns' =>
          cases isUnique <;> simp [identity, indexKind, ColumnIdent.listSpelled] at hfirst heighth
      | _ => simp [identity] at hfirst
  | check body =>
      cases r' with
      | check body' =>
          obtain ⟨hbody, htail⟩ := decodes_check _ _ _ _ ⟨hr, hc⟩ ⟨hr', hc'⟩ trivial trivial
            (by simpa [identity, String.append_assoc] using heq)
          exact ⟨congrArg check hbody, htail⟩
      | index isUnique columns' => cases isUnique <;> simp [identity, indexKind] at hfirst
      | _ => simp [identity] at hfirst
  | index isUnique columns =>
      cases r' with
      | index isUnique' columns' =>
          have hunique : isUnique = isUnique' := by
            cases isUnique <;> cases isUnique' <;> simp [identity, indexKind] at hfirst ⊢
          subst hunique
          obtain ⟨hcolumns, htail⟩ := hlist (indexKind isUnique ++ " ") _ _ _ _ hc hc' trivial trivial
            heq
          exact ⟨congrArg (index isUnique) hcolumns, htail⟩
      | _ => cases isUnique <;>
          simp [identity, indexKind, ColumnIdent.listSpelled] at hfirst heighth

end Rule

theorem ColumnIdent.listSpelled_unquoted (columns : List ColumnIdent) :
    listSpelled Ident.name (columns.map unquoted) = listSpelled Ident.name columns := by
  have hcolumn : ∀ c : ColumnIdent, spelled Ident.name c.unquoted = spelled Ident.name c := by
    intro c
    simp [spelled, unquoted, Ident.unquoted, Ident.bare]
  simp [listSpelled, Function.comp_def, hcolumn]

theorem Expr.identity_unquoted (e : Expr) : e.unquoted.identity = e.identity := by
  simp [identity, spelled, unquoted, Ident.unquoted, Ident.bare, Function.comp_def]

theorem Rule.identity_unquoted (r : Rule) : r.unquoted.identity = r.identity := by
  cases r <;> simp [unquoted, identity, ColumnIdent.listSpelled_unquoted, Expr.identity_unquoted,
    Reference.unquoted, Reference.identity, Reference.actions, ObjectName.unquoted,
    ObjectName.identity, ObjectName.ofIdent, Ident.unquoted, Ident.bare]

theorem Constraint.definition_of_unquoted {c c' : Constraint} (h : c.unquoted = c'.unquoted) :
    c.definition = c'.definition := by
  have hrule : c.rule.unquoted = c'.rule.unquoted := congrArg Constraint.rule h
  rw [definition, definition, ← Rule.identity_unquoted, hrule, Rule.identity_unquoted]

theorem Constraint.unquoted_eq_iff {c c' : Constraint} (h : c.Readable d ∧ c.Clear d)
    (h' : c'.Readable d ∧ c'.Clear d) (hname : c.name.name = c'.name.name) :
    c.unquoted = c'.unquoted ↔ c.definition = c'.definition := by
  constructor
  · exact definition_of_unquoted
  · intro hsame
    have hend : StopsAt [',', ')'] [')'] := stopsAt_cons (by simp)
    have hrule := (Rule.decodes c.rule c'.rule _ _ ⟨h.1.rule, h.2.rule⟩ ⟨h'.1.rule, h'.2.rule⟩ hend
      hend (congrArg (·.toList ++ [')']) hsame)).1
    simp only [unquoted, Ident.unquoted, hname, hrule]

end SchemaDiff
