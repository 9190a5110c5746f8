import SchemaDiff.Parser.Table
import SchemaDiff.Proofs.Expr
import SchemaDiff.Proofs.Name

namespace SchemaDiff

open SchemaDiff.Parser

variable {d : Dialect}

-- What stands behind an entry of a table, or behind one that a statement of its own adds.
def Face.EndsEntry (Y : List Face) : Prop :=
  (first Y).kind ∈ [TokenKind.symbol .comma, .symbol .rightParen, .symbol .semicolon]

theorem Face.EndsEntry.ne {Y : List Face} (h : EndsEntry Y) {kind : TokenKind}
    (hk : kind ∉ [TokenKind.symbol .comma, .symbol .rightParen, .symbol .semicolon]) :
    (first Y).kind ≠ kind := by
  rintro rfl
  exact hk h

namespace ReferentialAction

def keywords : ReferentialAction → List Keyword
  | noAction => [.no, .action]
  | restrict => [.restrict]
  | cascade => [.cascade]
  | setNull => [.set, .null]
  | setDefault => [.set, .default]

theorem steps (a : ReferentialAction) (Y : List Face) :
    Steps referentialAction (a.keywords.map Face.keyword ++ Y) a Y := by
  refine .current fun t ht => ?_
  have hk : t.keyword? = a.keywords.head? := by
    have hkind : t.kind = _ := congrArg Face.kind ht
    rw [Token.keyword?, hkind]
    cases a <;> rfl
  rw [hk]
  cases a with
  | noAction => exact .advance fun _ _ => .bind (.expectKeyword rfl) (.pure _ Y)
  | restrict => exact .advance fun _ _ => .pure _ Y
  | cascade => exact .advance fun _ _ => .pure _ Y
  | setNull => exact .advance fun _ _ => .bind (.consume_true rfl) (.pure _ Y)
  | setDefault =>
      have hnull : (Face.first (Face.keyword .default :: Y)).kind ≠ .keyword .null := by
        simp [Face.keyword]
      exact .advance fun _ _ => .bind (.consume_false hnull) (.bind (.consume_true rfl) (.pure _ Y))

end ReferentialAction

namespace Parser.ReferenceClause

def keywords : ReferenceClause → List Keyword
  | onDelete action => .onWord :: .delete :: action.keywords
  | onUpdate action => .onWord :: .update :: action.keywords

def faces (c : ReferenceClause) : List Face :=
  c.keywords.map Face.keyword

def text (c : ReferenceClause) : String :=
  " " ++ phrase c.keywords

theorem steps (c : ReferenceClause) (Y : List Face) :
    Steps referenceClause? (c.faces ++ Y) (some c) Y := by
  cases c with
  | onDelete action =>
      exact .bind (.consume_true rfl) (.bind (.consume_true rfl)
        (.bind (action.steps Y) (.pure _ Y)))
  | onUpdate action =>
      have hdelete :
          (Face.first (Face.keyword .update :: (action.keywords.map Face.keyword ++ Y))).kind ≠
            .keyword .delete := by
        simp [Face.keyword]
      exact .bind (.consume_true rfl) (.bind (.consume_false hdelete) (.bind (.consume_true rfl)
        (.bind (action.steps Y) (.pure _ Y))))

theorem prints (c : ReferenceClause) : Prints d c.text c.faces := by
  refine (Prints.commonPhrase c.keywords ?_).space
  rcases c with a | a <;> cases a <;> decide

theorem apply_foldl (clauses : List ReferenceClause) (r : Reference) :
    (clauses.foldl apply r).table = r.table ∧ (clauses.foldl apply r).columns = r.columns := by
  induction clauses generalizing r with
  | nil => exact ⟨rfl, rfl⟩
  | cons c clauses ih =>
      obtain ⟨htable, hcolumns⟩ := ih (c.apply r)
      rw [List.foldl_cons, htable, hcolumns]
      cases c <;> exact ⟨rfl, rfl⟩

end Parser.ReferenceClause

namespace Reference

structure Readable (d : Dialect) (r : Reference) : Prop where
  table : r.table.Readable d
  columns : ∀ c ∈ r.columns, c.ident.Readable d

-- The clauses in the order in which they are printed.
def clauses (r : Reference) : List ReferenceClause :=
  r.onDelete.toList.map .onDelete ++ r.onUpdate.toList.map .onUpdate

theorem apply_clauses (r : Reference) :
    r.clauses.foldl ReferenceClause.apply ⟨r.table, r.columns, none, none⟩ = r := by
  rcases r with ⟨table, columns, _ | onDelete, _ | onUpdate⟩ <;> rfl

theorem join_clauses (r : Reference) :
    String.join (r.clauses.map ReferenceClause.text) = r.actions := by
  have hdelete : ∀ a, ReferenceClause.text (.onDelete a) = " ON DELETE " ++ a.sql := by
    intro a
    cases a <;> decide
  have hupdate : ∀ a, ReferenceClause.text (.onUpdate a) = " ON UPDATE " ++ a.sql := by
    intro a
    cases a <;> decide
  rcases r with ⟨table, columns, _ | onDelete, _ | onUpdate⟩ <;>
    simp [clauses, actions, hdelete, hupdate]

def columnFaces (d : Dialect) (columns : List ColumnIdent) : List Face :=
  if columns.isEmpty then [] else ColumnIdent.listFaces d columns

def faces (d : Dialect) (r : Reference) : List Face :=
  r.table.faces d ++ (columnFaces d r.columns ++ r.clauses.flatMap ReferenceClause.faces)

theorem Readable.prints {r : Reference} (h : r.Readable d) : Prints d r.sql (r.faces d) := by
  obtain ⟨hclauses, hbehind⟩ : Prints d (String.join (r.clauses.map ReferenceClause.text))
        (r.clauses.flatMap ReferenceClause.faces) ∧
      Separates (String.join (r.clauses.map ReferenceClause.text)) :=
    Prints.join fun c _ => ⟨c.prints, separates_space _⟩
  rw [join_clauses] at hclauses hbehind
  rw [sql, faces, String.append_assoc]
  cases hc : r.columns with
  | nil => exact h.table.prints.append hclauses hbehind
  | cons c columns =>
      have hlist : Prints d (" " ++ ColumnIdent.listSpelled Ident.raw r.columns)
          (ColumnIdent.listFaces d r.columns) :=
        (ColumnIdent.ListReadable.prints ⟨by simp [hc], h.columns⟩).space
      rw [hc] at hlist
      exact h.table.prints.append (hlist.append hclauses hbehind)
        ((separates_space _).append hbehind)

-- What may stand behind a reference.
def Follows (Y : List Face) : Prop :=
  (Face.first Y).kind ∉ [TokenKind.symbol .dot, .symbol .leftParen, .keyword .onWord]

theorem Follows.ne {Y : List Face} (h : Follows Y) {kind : TokenKind}
    (hk : kind ∈ [TokenKind.symbol .dot, .symbol .leftParen, .keyword .onWord]) :
    (Face.first Y).kind ≠ kind := by
  rintro rfl
  exact h hk

theorem follows_of_endsEntry {Y : List Face} (hY : Face.EndsEntry Y) : Follows Y := by
  simp only [Face.EndsEntry, List.mem_cons, List.not_mem_nil, or_false] at hY
  rcases hY with h | h | h <;> simp [Follows, h]

-- The clauses begin with a keyword of their own.
theorem first_clauses {r : Reference} {Y : List Face} {s : Symbol}
    (hY : (Face.first Y).kind ≠ .symbol s) :
    (Face.first (r.clauses.flatMap ReferenceClause.faces ++ Y)).kind ≠ .symbol s := by
  cases hc : r.clauses with
  | nil => exact hY
  | cons c clauses => cases c <;> simp [ReferenceClause.faces, ReferenceClause.keywords, Face.keyword]

theorem steps_referencedColumns {columns : List ColumnIdent}
    (h : ∀ c ∈ columns, c.ident.Readable d) {Y : List Face}
    (hY : (Face.first Y).kind ≠ .symbol .leftParen) :
    Steps referencedColumns (columnFaces d columns ++ Y) columns Y := by
  refine .bind (.check _) ?_
  cases hc : columns with
  | nil =>
      have hnone : ((Face.first (columnFaces d [] ++ Y)).kind == .symbol .leftParen) = false :=
        beq_false_of_ne hY
      rw [hnone]
      exact .pure [] Y
  | cons c cs =>
      rw [← hc]
      have hne : columns ≠ [] := by simp [hc]
      have hfaces : columnFaces d columns = ColumnIdent.listFaces d columns := by
        simp [columnFaces, hne]
      rw [hfaces]
      exact ColumnIdent.ListReadable.steps ⟨hne, h⟩ .referencedColumns Y

theorem Readable.steps {r : Reference} (h : r.Readable d) {Y : List Face}
    (hY : Follows Y) :
    Steps reference (.keyword .references :: (r.faces d ++ Y)) r Y := by
  have hparen : (Face.first (r.clauses.flatMap ReferenceClause.faces ++ Y)).kind ≠
      .symbol .leftParen := first_clauses (hY.ne (by simp))
  have hdot : (Face.first (columnFaces d r.columns ++
      (r.clauses.flatMap ReferenceClause.faces ++ Y))).kind ≠ .symbol .dot := by
    cases hc : r.columns with
    | nil => exact first_clauses (hY.ne (by simp))
    | cons c columns => simp [columnFaces, ColumnIdent.listFaces, Face.symbol]
  have hclauses : Steps (many referenceClause?) (r.clauses.flatMap ReferenceClause.faces ++ Y)
      r.clauses Y :=
    .many (fun _ => True) (fun c _ Y _ => c.steps Y)
      (fun c _ => by cases c <;> simp [ReferenceClause.faces, ReferenceClause.keywords]) (by simp)
      (.bind (.consume_false (hY.ne (by simp))) (.pure none Y)) trivial
  rw [faces, List.append_assoc, List.append_assoc]
  refine .bind (.expectKeyword rfl) (.bind (h.table.steps _ hdot)
    (.bind (steps_referencedColumns h.columns hparen) (.bind hclauses ?_)))
  rw [apply_clauses]
  exact .pure r Y

end Reference

namespace Parser

theorem yields_referentialAction : Yields d referentialAction fun _ => True := by
  refine .current fun t _ => ?_
  split
  · exact .advance (.pure trivial)
  · exact .advance (.pure trivial)
  · exact .advance (.bind .expectKeyword fun _ _ => .pure trivial)
  · refine .advance (.bind .consume fun null _ => ?_)
    cases null with
    | true => exact .pure trivial
    | false =>
        refine .bind .consume fun default _ => ?_
        cases default with
        | true => exact .pure trivial
        | false => exact .fail
  · exact .of .fail

theorem yields_referenceClause? : Yields d referenceClause? fun _ => True := by
  refine .bind .consume fun on _ => ?_
  cases on with
  | false => exact .pure trivial
  | true =>
      refine .bind .consume fun delete _ => ?_
      cases delete with
      | true => exact .bind yields_referentialAction fun _ _ => .pure trivial
      | false =>
          refine .bind .consume fun update _ => ?_
          cases update with
          | true => exact .bind yields_referentialAction fun _ _ => .pure trivial
          | false => exact .fail

theorem yields_reference : Yields d reference (Reference.Readable d) := by
  have hcolumns : Yields d referencedColumns fun columns => ∀ c ∈ columns, c.ident.Readable d := by
    refine .bind .check fun found _ => ?_
    cases found with
    | true => exact ColumnIdent.yields_columnList.mono fun _ h => h.readable
    | false => exact .pure (by simp)
  refine .bind .expectKeyword fun _ _ => .bind ObjectName.yields_objectName fun table htable =>
    .bind hcolumns fun columns hcolumns =>
    .bind (.many (P := fun _ => True) (yields_referenceClause?.mono (by simp))) fun clauses _ =>
    .pure ?_
  obtain ⟨hsameTable, hsameColumns⟩ :=
    ReferenceClause.apply_foldl clauses ⟨table, columns, none, none⟩
  exact ⟨hsameTable ▸ htable, hsameColumns ▸ hcolumns⟩

end Parser

end SchemaDiff
