import SchemaDiff.Parser.Statement
import SchemaDiff.Proofs.Expr
import SchemaDiff.Proofs.Table

namespace SchemaDiff

open SchemaDiff.Parser

variable {d : Dialect}

namespace CreateIndex

-- Every part of the statement can be read again on its own.
structure Parts (d : Dialect) (i : CreateIndex) : Prop where
  name : i.name.Readable d
  table : i.table.Readable d
  method : ∀ m ∈ i.method, m.Readable d
  columns : ColumnIdent.ListReadable d i.columns
  predicate : ∀ e ∈ i.predicate, e.Readable d .statement

structure Readable (d : Dialect) (i : CreateIndex) : Prop extends Parts d i where
  start : i.ifNotExists = false → (Face.first (i.name.faces d)).kind ≠ .keyword .ifWord

-- No two tokens of the predicate become one when it is printed.
def Spaced (d : Dialect) (i : CreateIndex) : Prop :=
  ∀ e ∈ i.predicate, e.Spaced d

instance (d : Dialect) : DecidablePred (Spaced d) :=
  fun i => inferInstanceAs (Decidable (∀ e ∈ i.predicate, e.Spaced d))

theorem yields_createIndex {isUnique : Bool} :
    Yields d (Parser.createIndex isUnique) fun i => i.Readable d := by
  have hmethod : Yields d indexMethod? fun o => ∀ m ∈ o, m.Readable d := by
    refine .bind .consume fun found _ => ?_
    cases found with
    | true => exact .bind yields_ident fun m hm => .pure (by simpa using hm)
    | false => exact .pure (by simp)
  have hpredicate : Yields d indexPredicate? fun o => ∀ e ∈ o, e.Readable d .statement := by
    refine .bind .consume fun found _ => ?_
    cases found with
    | true => exact .bind yields_expr_statement fun e he => .pure (by simpa using he)
    | false => exact .pure (by simp)
  have hrest : ∀ (found : Bool) (name : ObjectName), name.Readable d →
      (found = false → (Face.first (name.faces d)).kind ≠ .keyword .ifWord) →
      Yields d (do
        expectKeyword .onWord .createIndex
        let table ← objectName .tableName
        let method ← indexMethod?
        let columns ← columnList .indexColumns
        let predicate ← indexPredicate?
        return (⟨isUnique, found, name, table, method, columns, predicate⟩ : CreateIndex))
        (Readable d) :=
    fun found name hname hstart => .bind .expectKeyword fun _ _ =>
      .bind ObjectName.yields_objectName fun table htable => .bind hmethod fun method hmethod =>
      .bind ColumnIdent.yields_columnList fun columns hcolumns =>
      .bind hpredicate fun predicate hpredicate =>
      .pure ⟨⟨hname, htable, hmethod, hcolumns, hpredicate⟩, hstart⟩
  refine yields_ifNotExists ?_ fun t ht hk => ?_
  · exact .bind ObjectName.yields_objectName fun name hname => hrest true name hname (by simp)
  · refine .bind (ObjectName.yieldsAt_objectName ht) fun name hname =>
      hrest false name hname.1 fun _ => ?_
    rw [hname.2]
    exact hk

def methodFaces (d : Dialect) (i : CreateIndex) : List Face :=
  i.method.elim [] fun m => [.keyword .usingWord, m.face d]

def predicateFaces (d : Dialect) (i : CreateIndex) : List Face :=
  i.predicate.elim [] fun e => .keyword .whereWord :: e.faces d

def faces (d : Dialect) (i : CreateIndex) : List Face :=
  (if i.ifNotExists then [.keyword .ifWord, .keyword .not, .keyword .existsWord] else []) ++
    (i.name.faces d ++ .keyword .onWord :: (i.table.faces d ++ (methodFaces d i ++
      (ColumnIdent.listFaces d i.columns ++ predicateFaces d i))))

variable {i : CreateIndex}

theorem Parts.prints_method (h : i.Parts d) :
    Prints d (i.method.elim "" (" USING " ++ ·.raw)) (methodFaces d i) ∧
      Separates (i.method.elim "" (" USING " ++ ·.raw)) := by
  unfold methodFaces
  cases hm : i.method with
  | none => exact ⟨.empty, separates_empty⟩
  | some m => exact Prints.spacedLead " USING " [.usingWord] rfl (by decide) (h.method m hm).prints

theorem Parts.prints_predicate (h : i.Parts d) (hs : i.Spaced d) :
    Prints d (i.predicate.elim "" (" WHERE " ++ ·.sql)) (predicateFaces d i) ∧
      Separates (i.predicate.elim "" (" WHERE " ++ ·.sql)) := by
  unfold predicateFaces
  cases he : i.predicate with
  | none => exact ⟨.empty, separates_empty⟩
  | some e =>
      exact Prints.spacedLead " WHERE " [.whereWord] rfl (by decide)
        ((h.predicate e he).prints (hs e he))

theorem Parts.prints (h : i.Parts d) (hs : i.Spaced d) :
    Prints d i.sql (.keyword .create :: ((Rule.indexKeywords i.unique).map Face.keyword ++
      i.faces d)) := by
  obtain ⟨hpredicate, hbehind⟩ := h.prints_predicate hs
  obtain ⟨hmethod, hlist⟩ := h.prints_method
  have hcolumns := (h.columns.prints.append hpredicate hbehind).space
  have htable := h.table.prints.append (hmethod.append hcolumns (separates_space _))
    (hlist.append (separates_space _))
  obtain ⟨hon, hname⟩ := htable.spacedLead " ON " [.onWord] rfl (by decide)
  have hnamed := prints_ifNotExists i.ifNotExists (h.name.prints.append hon hname)
  have hkind := (Rule.prints_indexKind i.unique).append hnamed.space (separates_space _)
  have hall := hkind.lead "CREATE " [.create] rfl (by decide)
  simpa [sql, kind, faces, String.append_assoc] using hall

theorem Parts.steps_method (h : i.Parts d) {Y : List Face}
    (hY : (Face.first Y).kind ≠ .keyword .usingWord) :
    Steps indexMethod? (methodFaces d i ++ Y) i.method Y := by
  unfold methodFaces
  cases hm : i.method with
  | none => exact .bind (.consume_false hY) (.pure none Y)
  | some m =>
      exact .bind (.consume_true rfl) (.bind (steps_ident (h.method m hm) _ Y) (.pure _ Y))

theorem Parts.steps_predicate (h : i.Parts d) {Y : List Face}
    (hY : (Face.first Y).kind = .symbol .semicolon) :
    Steps indexPredicate? (predicateFaces d i ++ Y) i.predicate Y := by
  unfold predicateFaces
  cases he : i.predicate with
  | none => exact .bind (.consume_false (by simp [hY])) (.pure none Y)
  | some e =>
      exact .bind (.consume_true rfl) (.bind (steps_expr (h.predicate e he) _ hY) (.pure _ Y))

theorem Readable.steps (h : i.Readable d) {Y : List Face}
    (hY : (Face.first Y).kind = .symbol .semicolon) :
    Steps (Parser.createIndex i.unique) (i.faces d ++ Y) i Y := by
  have hlist : ∀ k : Keyword, ∀ Z : List Face,
      (Face.first (ColumnIdent.listFaces d i.columns ++ Z)).kind ≠ .keyword k := by
    simp [ColumnIdent.listFaces, Face.symbol]
  have hdot : ∀ Z : List Face, (Face.first (methodFaces d i ++
      (ColumnIdent.listFaces d i.columns ++ Z))).kind ≠ .symbol .dot := by
    intro Z
    unfold methodFaces
    cases i.method <;> simp [ColumnIdent.listFaces, Face.symbol, Face.keyword]
  rw [faces]
  simp only [List.append_assoc, List.cons_append]
  exact .bind (steps_ifNotExists fun hfound => i.name.first_faces _ ▸ h.start hfound)
    (.bind (h.name.steps _ (by simp [Face.keyword])) (.bind (.expectKeyword rfl)
      (.bind (h.table.steps _ (hdot _)) (.bind (h.steps_method (hlist .usingWord _))
        (.bind (h.columns.steps _ _) (.bind (h.steps_predicate hY) (.pure i Y)))))))

end CreateIndex

end SchemaDiff
