import SchemaDiff.Proofs.Catalog

namespace SchemaDiff

def Column.entry (c : Column) : String × ColumnState :=
  (c.name.name, .of c)

namespace Constraint

def entryOf? (c : Constraint) : Option (String × String) :=
  if c.isIndex then none else some (c.name.name, c.definition)

def indexEntryOf? (table : String) (c : Constraint) : Option (String × IndexState) :=
  match c.rule with
  | .index isUnique columns => some (c.name.name, .inline table isUnique columns)
  | _ => none

theorem entryOf?_of_isIndex {c : Constraint} (h : c.isIndex = true) : c.entryOf? = none := by
  simp [entryOf?, h]

theorem entryOf?_of_not_isIndex {c : Constraint} (h : c.isIndex = false) :
    c.entryOf? = some (c.name.name, c.definition) := by
  simp [entryOf?, h]

theorem indexEntryOf?_of_not_isIndex {c : Constraint} (table : String) (h : c.isIndex = false) :
    c.indexEntryOf? table = none := by
  unfold indexEntryOf?
  split
  · rename_i isUnique columns hr
    simp [isIndex, hr, Rule.isIndex] at h
  · rfl

theorem exists_of_isIndex {c : Constraint} (h : c.isIndex = true) :
    ∃ isUnique columns, c.rule = .index isUnique columns := by
  cases hr : c.rule with
  | index isUnique columns => exact ⟨isUnique, columns, rfl⟩
  | _ => simp [isIndex, hr, Rule.isIndex] at h

theorem entryOf?_name {c : Constraint} {e : String × String} (h : c.entryOf? = some e) :
    e.1 = c.name.name := by
  unfold entryOf? at h
  split at h
  · cases h
  · cases h; rfl

theorem indexEntryOf?_name {c : Constraint} {table : String} {e : String × IndexState}
    (h : c.indexEntryOf? table = some e) : e.1 = c.name.name := by
  unfold indexEntryOf? at h
  split at h
  · cases h; rfl
  · cases h

theorem isIndex_of_indexEntryOf? {c : Constraint} {table : String} {e : String × IndexState}
    (h : c.indexEntryOf? table = some e) : c.isIndex = true := by
  by_contra hn
  rw [indexEntryOf?_of_not_isIndex table (by simpa using hn)] at h
  cases h

theorem indexEntryOf?_table {c : Constraint} {table : String} {e : String × IndexState}
    (h : c.indexEntryOf? table = some e) : e.2.table = table := by
  unfold indexEntryOf? at h
  split at h
  · cases h; rfl
  · cases h

theorem name_notMem_entries {name : String} {cs : List Constraint}
    (h : name ∉ cs.map (·.name.name)) : name ∉ (cs.filterMap entryOf?).map Prod.fst := by
  intro hm
  obtain ⟨e, he, rfl⟩ := List.mem_map.mp hm
  obtain ⟨c, hc, hce⟩ := List.mem_filterMap.mp he
  exact h (entryOf?_name hce ▸ List.mem_map_of_mem (f := fun c : Constraint => c.name.name) hc)

theorem name_notMem_indexEntries {name table : String} {cs : List Constraint}
    (h : name ∉ cs.map (·.name.name)) :
    name ∉ (cs.filterMap (indexEntryOf? table)).map Prod.fst := by
  intro hm
  obtain ⟨e, he, rfl⟩ := List.mem_map.mp hm
  obtain ⟨c, hc, hce⟩ := List.mem_filterMap.mp he
  exact h (indexEntryOf?_name hce ▸ List.mem_map_of_mem (f := fun c : Constraint => c.name.name) hc)

-- Under one name, the two mean the same to a database if they mean the same to a comparison.
def Same (old new : Constraint) : Prop :=
  old.name.name = new.name.name → old.definition = new.definition →
    old.entryOf? = new.entryOf? ∧ ∀ table, old.indexEntryOf? table = new.indexEntryOf? table

end Constraint

-- What a database holds beside one table and its indexes.
structure Surroundings where
  tablesLeft : List (String × TableState)
  tablesRight : List (String × TableState)
  indexesLeft : List (String × IndexState)
  indexesRight : List (String × IndexState)

namespace Surroundings

def around (s : Surroundings) (table : String) (columns : List (String × ColumnState))
    (constraints : List Constraint) : Catalog where
  tables := .ofList (s.tablesLeft ++
    (table, ⟨.ofList columns, .ofList (constraints.filterMap Constraint.entryOf?)⟩) ::
      s.tablesRight)
  indexes := .ofList (s.indexesLeft ++ constraints.filterMap (Constraint.indexEntryOf? table) ++
    s.indexesRight)

-- No other index has the name of the constraint.
def Avoids (s : Surroundings) (c : Constraint) : Prop :=
  c.isIndex = true →
    c.name.name ∉ s.indexesLeft.map Prod.fst ∧ c.name.name ∉ s.indexesRight.map Prod.fst

section

variable {s : Surroundings} {table : String} {columns : List (String × ColumnState)}
  {constraints : List Constraint}

theorem around_columns_congr {columns' : List (String × ColumnState)}
    (h : Store.ofList columns = Store.ofList columns') :
    s.around table columns constraints = s.around table columns' constraints := by
  simp only [around, h]

theorem around_constraints_congr {constraints' : List Constraint}
    (h : Store.ofList (constraints.filterMap Constraint.entryOf?) =
      Store.ofList (constraints'.filterMap Constraint.entryOf?))
    (hi : Store.ofList (constraints.filterMap (Constraint.indexEntryOf? table)) =
      Store.ofList (constraints'.filterMap (Constraint.indexEntryOf? table))) :
    s.around table columns constraints = s.around table columns constraints' := by
  simp only [around, h, Store.ofList_append_congr hi]

theorem tables_around (h : table ∉ s.tablesLeft.map Prod.fst) :
    (s.around table columns constraints).tables table =
      some ⟨.ofList columns, .ofList (constraints.filterMap Constraint.entryOf?)⟩ :=
  Store.ofList_middle _ _ _ _ h

theorem onTable_around (h : table ∉ s.tablesLeft.map Prod.fst)
    (f : TableState → Option TableState) :
    (s.around table columns constraints).onTable table f =
      (f ⟨.ofList columns, .ofList (constraints.filterMap Constraint.entryOf?)⟩).map fun t =>
        ⟨.ofList (s.tablesLeft ++ (table, t) :: s.tablesRight),
          (s.around table columns constraints).indexes⟩ := by
  rw [Catalog.onTable]
  simp only [around]
  rw [Store.change_ofList _ _ _ _ _ h, Option.map_map]
  rfl

theorem onColumns_around (h : table ∉ s.tablesLeft.map Prod.fst)
    {f : Store ColumnState → Option (Store ColumnState)} {columns' : List (String × ColumnState)}
    (hf : f (.ofList columns) = some (.ofList columns')) :
    (s.around table columns constraints).onTable table (·.onColumns f) =
      some (s.around table columns' constraints) := by
  rw [onTable_around h]
  simp only [TableState.onColumns, hf, Option.map_some]
  rfl

theorem addColumn_around (h : table ∉ s.tablesLeft.map Prod.fst)
    {l r : List (String × ColumnState)} {c : Column} (hl : c.name.name ∉ l.map Prod.fst)
    (hr : c.name.name ∉ r.map Prod.fst) :
    (s.around table (l ++ r) constraints).addColumn table c =
      some (s.around table (l ++ c.entry :: r) constraints) :=
  onColumns_around h (Store.add_ofList l r _ _ hl hr)

theorem dropColumn_around (h : table ∉ s.tablesLeft.map Prod.fst)
    {l r : List (String × ColumnState)} {name : String} {column : ColumnState}
    (hl : name ∉ l.map Prod.fst) (hr : name ∉ r.map Prod.fst) :
    (s.around table (l ++ (name, column) :: r) constraints).onTable table
        (·.onColumns (·.remove name)) =
      some (s.around table (l ++ r) constraints) :=
  onColumns_around h (Store.remove_ofList l r _ _ hl hr)

theorem changeColumn_around (h : table ∉ s.tablesLeft.map Prod.fst)
    {l r : List (String × ColumnState)} {name : String} {column : ColumnState}
    (hl : name ∉ l.map Prod.fst) (f : ColumnState → ColumnState) :
    (s.around table (l ++ (name, column) :: r) constraints).onTable table
        (·.onColumns (·.change name fun column => some (f column))) =
      some (s.around table (l ++ (name, f column) :: r) constraints) :=
  onColumns_around h (Store.change_ofList l r _ _ _ hl)

theorem notMem_left {l : List Constraint} {c : Constraint} (hl : c.name.name ∉ l.map (·.name.name))
    (hc : c.name.name ∉ s.indexesLeft.map Prod.fst) :
    c.name.name ∉ (s.indexesLeft ++ l.filterMap (Constraint.indexEntryOf? table)).map Prod.fst := by
  rw [List.map_append, List.mem_append, not_or]
  exact ⟨hc, Constraint.name_notMem_indexEntries hl⟩

theorem notMem_right {r : List Constraint} {c : Constraint}
    (hr : c.name.name ∉ r.map (·.name.name)) (hc : c.name.name ∉ s.indexesRight.map Prod.fst) :
    c.name.name ∉ (r.filterMap (Constraint.indexEntryOf? table) ++ s.indexesRight).map Prod.fst := by
  rw [List.map_append, List.mem_append, not_or]
  exact ⟨Constraint.name_notMem_indexEntries hr, hc⟩

-- A constraint that is an index is one entry among the indexes.
theorem around_of_isIndex (s : Surroundings) (table : String)
    (columns : List (String × ColumnState)) (l r : List Constraint) {c : Constraint}
    (hi : c.isIndex = true) :
    ∃ index : IndexState, index.table = table ∧ c.indexEntryOf? table = some (c.name.name, index) ∧
      s.around table columns (l ++ c :: r) =
        ⟨(s.around table columns (l ++ r)).tables,
          .ofList ((s.indexesLeft ++ l.filterMap (Constraint.indexEntryOf? table)) ++
            (c.name.name, index) ::
              (r.filterMap (Constraint.indexEntryOf? table) ++ s.indexesRight))⟩ := by
  obtain ⟨isUnique, keys, hrule⟩ := Constraint.exists_of_isIndex hi
  have hentry : c.indexEntryOf? table = some (c.name.name, .inline table isUnique keys) := by
    simp [Constraint.indexEntryOf?, hrule]
  refine ⟨.inline table isUnique keys, rfl, hentry, ?_⟩
  simp [around, hentry, Constraint.entryOf?_of_isIndex hi]

theorem around_append {l r : List Constraint} :
    s.around table columns (l ++ r) =
      ⟨(s.around table columns (l ++ r)).tables,
        .ofList ((s.indexesLeft ++ l.filterMap (Constraint.indexEntryOf? table)) ++
          (r.filterMap (Constraint.indexEntryOf? table) ++ s.indexesRight))⟩ := by
  simp [around]

-- A constraint that is no index is one entry of its table.
theorem around_of_not_isIndex (s : Surroundings) (table : String)
    (columns : List (String × ColumnState)) (l r : List Constraint) {c : Constraint}
    (hi : c.isIndex = false) :
    (l ++ c :: r).filterMap Constraint.entryOf? =
        l.filterMap Constraint.entryOf? ++ (c.name.name, c.definition) ::
          r.filterMap Constraint.entryOf? ∧
      (s.around table columns (l ++ c :: r)).indexes = (s.around table columns (l ++ r)).indexes := by
  simp [around, Constraint.entryOf?_of_not_isIndex hi, Constraint.indexEntryOf?_of_not_isIndex table hi]

theorem onConstraints_around (h : table ∉ s.tablesLeft.map Prod.fst) {cs cs' : List Constraint}
    {f : Store String → Option (Store String)}
    (hf : f (.ofList (cs.filterMap Constraint.entryOf?)) =
      some (.ofList (cs'.filterMap Constraint.entryOf?)))
    (hx : (s.around table columns cs).indexes = (s.around table columns cs').indexes) :
    (s.around table columns cs).onTable table (·.onConstraints f) =
      some (s.around table columns cs') := by
  rw [onTable_around h]
  simp only [TableState.onConstraints, hf, Option.map_some, hx]
  rfl

theorem addConstraint_around (h : table ∉ s.tablesLeft.map Prod.fst) {l r : List Constraint}
    {c : Constraint} (hl : c.name.name ∉ l.map (·.name.name))
    (hr : c.name.name ∉ r.map (·.name.name)) (hc : s.Avoids c) :
    (s.around table columns (l ++ r)).addConstraint table c =
      some (s.around table columns (l ++ c :: r)) := by
  by_cases hi : c.isIndex = true
  · obtain ⟨index, ht, hentry, haround⟩ := around_of_isIndex s table columns l r hi
    have hunfold : (s.around table columns (l ++ r)).addConstraint table c =
        (s.around table columns (l ++ r)).addIndex c.name.name index := by
      obtain ⟨isUnique, keys, hrule⟩ := Constraint.exists_of_isIndex hi
      simp only [Constraint.indexEntryOf?, hrule, Option.some.injEq, Prod.mk.injEq] at hentry
      simp only [Catalog.addConstraint, hrule, hentry.2]
    have hfound : ((s.around table columns (l ++ r)).tables index.table).isSome = true := by
      rw [ht, tables_around h]
      rfl
    rw [hunfold, haround, around_append]
    exact Catalog.addIndex_ofList hfound (notMem_left hl (hc hi).1) (notMem_right hr (hc hi).2)
  · have hi : c.isIndex = false := by simpa using hi
    obtain ⟨hentries, hindexes⟩ := around_of_not_isIndex s table columns l r hi
    have hunfold : (s.around table columns (l ++ r)).addConstraint table c =
        (s.around table columns (l ++ r)).onTable table
          (·.onConstraints (·.add c.name.name c.definition)) := by
      cases hrule : c.rule with
      | index isUnique keys => simp [Constraint.isIndex, hrule, Rule.isIndex] at hi
      | _ => simp only [Catalog.addConstraint, hrule]
    rw [hunfold]
    refine onConstraints_around h ?_ hindexes.symm
    rw [hentries, List.filterMap_append]
    exact Store.add_ofList _ _ _ _ (Constraint.name_notMem_entries hl)
      (Constraint.name_notMem_entries hr)

theorem dropConstraint_around (h : table ∉ s.tablesLeft.map Prod.fst) {l r : List Constraint}
    {c : Constraint} (hi : c.isIndex = false) (hl : c.name.name ∉ l.map (·.name.name))
    (hr : c.name.name ∉ r.map (·.name.name)) :
    (s.around table columns (l ++ c :: r)).onTable table
        (·.onConstraints (·.remove c.name.name)) =
      some (s.around table columns (l ++ r)) := by
  obtain ⟨hentries, hindexes⟩ := around_of_not_isIndex s table columns l r hi
  refine onConstraints_around h ?_ hindexes
  rw [hentries, List.filterMap_append]
  exact Store.remove_ofList _ _ _ _ (Constraint.name_notMem_entries hl)
    (Constraint.name_notMem_entries hr)

theorem dropIndex_around {l r : List Constraint} {c : Constraint} (hi : c.isIndex = true)
    (hl : c.name.name ∉ l.map (·.name.name)) (hr : c.name.name ∉ r.map (·.name.name))
    (hc : s.Avoids c) {onTable : Option String} (ht : onTable.all (· == table) = true) :
    (s.around table columns (l ++ c :: r)).dropIndex c.name.name onTable =
      some (s.around table columns (l ++ r)) := by
  obtain ⟨index, htable, -, haround⟩ := around_of_isIndex s table columns l r hi
  rw [haround, around_append]
  exact Catalog.dropIndex_ofList (notMem_left hl (hc hi).1) (notMem_right hr (hc hi).2)
    (htable ▸ ht)

end

end Surroundings

end SchemaDiff
