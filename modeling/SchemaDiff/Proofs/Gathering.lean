import SchemaDiff.Proofs.Change
import SchemaDiff.Proofs.Parser.Productions

namespace SchemaDiff

open SchemaDiff.Parser

variable {d : Dialect}

-- The change is one that the dialect has.
def TableChange.Gathered (d : Dialect) : TableChange → Prop
  | renameTable new => new.Readable d
  | renameColumn old new | renameConstraint old new => old.Readable d ∧ new.Readable d
  | addColumn column => column.Gathered d
  | dropColumn name | dropConstraint name => name.Readable d
  | alterColumn name change => name.Readable d ∧ change.Readable d
  | modifyColumn column => column.Gathered d ∧ d.keyword? Keyword.modify.text = some .modify
  | addConstraint constraint notValid =>
      constraint.Readable d ∧ (notValid = true → d.keyword? Keyword.valid.text = some .valid)

namespace Parser

theorem yields_addedColumn {table : ObjectName} :
    Yields d (addedColumn d table) fun changes => ∀ c ∈ changes, c.Gathered d := by
  refine .bind gathers_columnDefinition fun definition hdefinition => .pure ?_
  obtain ⟨hcolumn, hconstraints⟩ := hdefinition
  intro change hchange
  rcases List.mem_cons.mp hchange with rfl | hchange
  · show (if _ then _ else _ : Column).Gathered d
    split
    · exact hcolumn.notNull true
    · exact hcolumn
  · obtain ⟨c, hc, rfl⟩ := List.mem_map.mp hchange
    exact ⟨hconstraints c hc, by simp⟩

-- `VALID` behind `NOT` is a keyword where it is read as one.
theorem yields_notValid :
    Yields d notValid fun found => found = true → d.keyword? Keyword.valid.text = some .valid := by
  intro s found s' hs h
  rw [notValid_eq] at h
  split at h
  · rename_i hvalid
    cases h
    refine ⟨fun _ => ?_, hs.next.next⟩
    cases hnext : s.ahead.tail.head? with
    | none => simp [hnext] at hvalid
    | some t =>
        have hk : t.kind = .keyword .valid := by
          simp only [hnext, Option.any_some, Bool.and_eq_true, beq_iff_eq] at hvalid
          exact hvalid.2
        have hscanned := hs t (List.mem_of_mem_tail (List.mem_of_mem_head? hnext))
        exact keyword?_of_genuine (hscanned (by simp [hk]) (by simp [hk])) hk
  · cases h
    exact ⟨by simp, hs⟩

theorem yields_columnChange : Yields d (columnChange d) (·.Readable d) := by
  refine .current fun t _ => ?_
  split
  · exact .advance (.bind .consume fun _ _ => .ite
      (.bind .expectKeyword fun _ _ => .bind DataType.yields_dataType fun _ h => .pure h)
      (.bind .consume fun _ _ => .ite (.bind yields_expr_statement fun _ h => .pure h)
        (.bind .consume fun _ _ => .ite (.bind .expectKeyword fun _ _ => .pure trivial) .fail)))
  · exact .advance (.bind DataType.yields_dataType fun _ h => .pure h)
  · exact .advance (.bind .consume fun _ _ => .ite (.pure trivial)
      (.bind .consume fun _ _ => .ite (.bind .expectKeyword fun _ _ => .pure trivial) .fail))
  · exact .of .fail

theorem yields_addChange {table : ObjectName} :
    Yields d (addChange d table) fun changes => ∀ c ∈ changes, c.Gathered d :=
  .bind .consume fun _ _ => .ite yields_addedColumn (.current fun _ _ => .of (.ite
    (.bind yields_tableConstraint fun _ hc => .bind yields_notValid fun _ hvalid =>
      .pure (by simpa using ⟨hc, hvalid⟩))
    yields_addedColumn))

theorem yields_dropChange : Yields d dropChange (·.Gathered d) :=
  .bind .consume fun _ _ => .ite (.bind yields_ident fun _ h => .pure h)
    (.bind .consume fun _ _ => .ite (.bind yields_ident fun _ h => .pure h) .fail)

theorem yields_alterChange : Yields d (alterChange d) (·.Gathered d) :=
  .bind .consume fun _ _ => .bind yields_ident fun _ hname =>
    .bind yields_columnChange fun _ hchange => .pure ⟨hname, hchange⟩

theorem yields_modifyChange {table : ObjectName}
    (hkeyword : d.keyword? Keyword.modify.text = some .modify) :
    Yields d (modifyChange d table) (·.Gathered d) := by
  refine .bind .consume fun _ _ => .current fun _ _ => .of
    (.bind gathers_columnDefinition fun definition hdefinition =>
      .ite (.pure ⟨hdefinition.1, hkeyword⟩) ?_)
  intro s a s' _ h
  cases h

theorem yields_renameChange : Yields d renameChange (·.Gathered d) :=
  have hrename : ∀ (c : Context) (change : Ident → Ident → TableChange),
      (∀ old new, old.Readable d → new.Readable d → (change old new).Gathered d) →
      Yields d (do
        let old ← ident c
        expectKeyword .toWord .alterTableAction
        return change old (← ident c)) (·.Gathered d) :=
    fun _ _ h => .bind yields_ident fun _ hold => .bind .expectKeyword fun _ _ =>
      .bind yields_ident fun _ hnew => .pure (h _ _ hold hnew)
  .bind .consume fun _ _ => .ite (.bind yields_ident fun _ h => .pure h)
    (.bind .consume fun _ _ => .ite
      (hrename .columnName .renameColumn fun _ _ hold hnew => ⟨hold, hnew⟩)
      (.bind .consume fun _ _ => .ite
        (hrename .constraintName .renameConstraint fun _ _ hold hnew => ⟨hold, hnew⟩) .fail))

theorem yields_tableChanges {table : ObjectName} :
    Yields d (tableChanges d table) fun changes => ∀ c ∈ changes, c.Gathered d := by
  have hone : ∀ {p : Parser TableChange}, Yields d p (·.Gathered d) →
      Yields d (do return [← p]) fun changes => ∀ c ∈ changes, c.Gathered d :=
    fun h => .bind h fun _ hc => .pure (by simpa using hc)
  refine .current fun t ht => ?_
  split
  · exact .advance yields_addChange
  · exact .advance (hone yields_dropChange)
  · exact .advance (hone yields_alterChange)
  · rename_i hk
    exact .advance (hone (yields_modifyChange (keyword?_of_scanned ht hk)))
  · exact .advance (hone yields_renameChange)
  · exact .of .fail

end Parser

end SchemaDiff
