import SchemaDiff.Proofs.Gathering

namespace SchemaDiff

open SchemaDiff.Parser

variable {d : Dialect}

namespace Statement

-- A statement that creates something can be read again from its text.
def Readable (d : Dialect) : Statement → Prop
  | createTable t => t.Readable d
  | createIndex i => i.Readable d
  | _ => True

-- What holds of a statement that was read, whatever it does.
def Gathered (d : Dialect) : Statement → Prop
  | createTable t => t.Readable d
  | createIndex i => i.Readable d
  | alterTable name change => name.Readable d ∧ change.Gathered d
  | dropTable _ name => name.Readable d
  | dropIndex _ name table => name.Readable d ∧ ∀ t ∈ table, t.Readable d

theorem Gathered.readable {s : Statement} (h : s.Gathered d) : s.Readable d := by
  cases s with
  | createTable t => exact h
  | createIndex i => exact h
  | _ => trivial

end Statement

namespace Parser

theorem yields_alterTable :
    Yields d (alterTable d) fun statements => ∀ s ∈ statements, s.Gathered d := by
  refine .bind .expectKeyword fun _ _ => .bind .expectKeyword fun _ _ =>
    .bind ObjectName.yields_objectName fun name hname =>
    .bind (.commaSeparated yields_tableChanges) fun lists hlists => .pure fun s hs => ?_
  obtain ⟨change, hchange, rfl⟩ := List.mem_map.mp hs
  obtain ⟨changes, hchanges, hmem⟩ := List.mem_flatten.mp hchange
  exact ⟨hname, hlists.2 changes hchanges change hmem⟩

theorem yields_ifExists {c : Context} : Yields d (ifExists c) fun _ => True :=
  .bind .consume fun _ _ => .ite (.bind .expectKeyword fun _ _ => .pure trivial) (.pure trivial)

theorem yields_drop : Yields d drop (Statement.Gathered d) :=
  .bind .expectKeyword fun _ _ => .bind .consume fun _ _ => .ite
    (.bind yields_ifExists fun _ _ => .bind ObjectName.yields_objectName fun _ h => .pure h)
    (.bind .consume fun _ _ => .ite
      (.bind yields_ifExists fun _ _ => .bind ObjectName.yields_objectName fun _ hname =>
        .bind .consume fun _ _ => .ite
          (.bind ObjectName.yields_objectName fun _ htable => .pure ⟨hname, by simpa using htable⟩)
          (.pure ⟨hname, by simp⟩))
      .fail)

theorem yields_create : Yields d (create d) (Statement.Gathered d) :=
  .bind .expectKeyword fun _ _ => .bind .consume fun _ _ => .ite
    (.bind .expectKeyword fun _ _ => .bind CreateIndex.yields_createIndex fun _ h => .pure h)
    (.bind .consume fun _ _ => .ite (.bind CreateIndex.yields_createIndex fun _ h => .pure h)
      (.bind .consume fun _ _ => .ite (.bind CreateTable.yields_createTable fun _ h => .pure h)
        .fail))

theorem yields_statementEnd : Yields d statementEnd fun _ => True :=
  .current fun _ _ => .of (.ite (.pure trivial) .fail)

theorem yields_statements? :
    Yields d (statements? d) fun o => ∀ l ∈ o, ∀ s ∈ l, s.Gathered d := by
  refine .current fun t _ => ?_
  split
  · exact .of (.pure (by simp))
  · exact .advance (.pure (by simp))
  · exact .of (.bind yields_create fun _ h => .bind yields_statementEnd fun _ _ =>
      .pure (by simpa using h))
  · exact .of (.bind yields_alterTable fun _ h => .bind yields_statementEnd fun _ _ =>
      .pure (by simpa using h))
  · exact .of (.bind yields_drop fun _ h => .bind yields_statementEnd fun _ _ =>
      .pure (by simpa using h))
  · exact .of .fail

theorem yields_script : Yields d (script d) fun s => ∀ statement ∈ s, statement.Gathered d := by
  refine .bind (.many yields_statements?) fun lists h => .pure fun statement hs => ?_
  obtain ⟨list, hlist, hmem⟩ := List.mem_flatten.mp hs
  exact h list hlist statement hmem

end Parser

namespace Script

theorem gathered_of_parse {text : String} {s : Script} (h : parse d text = .ok s) :
    ∀ statement ∈ s, statement.Gathered d := by
  unfold parse at h
  split at h
  · rename_i script s' hscript
    cases h
    exact (yields_script _ _ _ (Cursor.Scanned.ofText d text) hscript).1
  · cases h

-- What is read from a text can be read again.
theorem readable_of_parse {text : String} {s : Script} (h : parse d text = .ok s) :
    ∀ statement ∈ s, statement.Readable d :=
  fun statement hs => (gathered_of_parse h statement hs).readable

end Script

end SchemaDiff
