import SchemaDiff.Migration.Schema
import SchemaDiff.Proofs.Catalog.Surroundings

namespace SchemaDiff

open Migration

def TableState.of (t : CreateTable) : TableState :=
  ⟨.ofList (t.columns.map Column.entry), .ofList (t.constraints.filterMap Constraint.entryOf?)⟩

namespace Migration.SchemaObject

def tableEntryOf? : SchemaObject → Option (String × TableState)
  | table t => some (t.name.identity, .of t)
  | index _ => none

@[simp] theorem tableEntryOf?_table (t : CreateTable) :
    (table t).tableEntryOf? = some (t.name.identity, .of t) := rfl

@[simp] theorem tableEntryOf?_index (i : CreateIndex) : (index i).tableEntryOf? = none := rfl

-- Indexes that are declared in a table, and indexes of their own.
def indexEntries : SchemaObject → List (String × IndexState)
  | table t => t.constraints.filterMap (Constraint.indexEntryOf? t.name.identity)
  | index i => [(i.name.identity, .of i)]

def indexNames (o : SchemaObject) : List String :=
  o.indexEntries.map Prod.fst

-- The two can be in one database.
def Apart (x y : SchemaObject) : Prop :=
  x.key ≠ y.key ∧ ∀ name ∈ x.indexNames, name ∉ y.indexNames

theorem tableEntryOf?_key {o : SchemaObject} {e : String × TableState}
    (h : o.tableEntryOf? = some e) : o.key = .table e.1 := by
  cases o with
  | table t => cases h; rfl
  | index i => cases h

theorem mem_indexNames_of_isIndex {t : CreateTable} {c : Constraint} (hc : c ∈ t.constraints)
    (hi : c.isIndex = true) : c.name.name ∈ (table t).indexNames := by
  obtain ⟨isUnique, columns, hrule⟩ := Constraint.exists_of_isIndex hi
  refine List.mem_map.mpr ⟨(c.name.name, .inline t.name.identity isUnique columns), ?_, rfl⟩
  exact List.mem_filterMap.mpr ⟨c, hc, by simp [Constraint.indexEntryOf?, hrule]⟩

theorem indexEntries_table {o : SchemaObject} {e : String × IndexState}
    (h : e ∈ o.indexEntries) : (∃ t, o = table t ∧ e.2.table = t.name.identity) ∨
      ∃ i, o = index i ∧ e.2.table = i.table.identity := by
  cases o with
  | table t =>
      obtain ⟨c, -, hc⟩ := List.mem_filterMap.mp h
      exact .inl ⟨t, rfl, Constraint.indexEntryOf?_table hc⟩
  | index i =>
      obtain rfl := List.mem_singleton.mp h
      exact .inr ⟨i, rfl, rfl⟩

end Migration.SchemaObject

namespace Catalog

open Migration.SchemaObject

def ofObjects (os : List SchemaObject) : Catalog :=
  ⟨.ofList (os.filterMap tableEntryOf?), .ofList (os.flatMap indexEntries)⟩

-- The state in which a schema leaves a database.
def ofScript (s : Script) : Catalog :=
  ofObjects (objects s)

-- What the objects hold beside a table between them.
def between (l r : List SchemaObject) : Surroundings where
  tablesLeft := l.filterMap tableEntryOf?
  tablesRight := r.filterMap tableEntryOf?
  indexesLeft := l.flatMap indexEntries
  indexesRight := r.flatMap indexEntries

theorem ofObjects_table (l r : List SchemaObject) (t : CreateTable) :
    ofObjects (l ++ .table t :: r) =
      (between l r).around t.name.identity (t.columns.map Column.entry) t.constraints := by
  simp [ofObjects, between, Surroundings.around, indexEntries, TableState.of]

theorem ofObjects_index (l r : List SchemaObject) (i : CreateIndex) :
    ofObjects (l ++ .index i :: r) =
      ⟨(ofObjects (l ++ r)).tables, .ofList (l.flatMap indexEntries ++
        (i.name.identity, .of i) :: r.flatMap indexEntries)⟩ := by
  simp [ofObjects, List.filterMap_cons, indexEntries]

theorem ofObjects_append (l r : List SchemaObject) :
    ofObjects (l ++ r) =
      ⟨(ofObjects (l ++ r)).tables, .ofList (l.flatMap indexEntries ++ r.flatMap indexEntries)⟩ := by
  simp [ofObjects]

-- The order of the objects does not matter.
theorem ofObjects_perm {os os' : List SchemaObject} (h : os.Perm os')
    (ht : ((os.filterMap tableEntryOf?).map Prod.fst).Nodup) (hi : (os.flatMap indexNames).Nodup) :
    ofObjects os = ofObjects os' := by
  have htables : (os.filterMap tableEntryOf?).Perm (os'.filterMap tableEntryOf?) := h.filterMap _
  have hindexes : (os.flatMap indexEntries).Perm (os'.flatMap indexEntries) := h.flatMap_right _
  have hi' : ((os.flatMap indexEntries).map Prod.fst).Nodup := by
    rwa [List.map_flatMap]
  simp only [ofObjects]
  rw [Store.ofList_congr ht ((htables.map Prod.fst).nodup_iff.mp ht) fun e => htables.mem_iff,
    Store.ofList_congr hi' ((hindexes.map Prod.fst).nodup_iff.mp hi') fun e => hindexes.mem_iff]

section

variable {l r : List SchemaObject} {t : CreateTable} {i : CreateIndex}

theorem table_notMem {os : List SchemaObject} (h : ∀ o ∈ os, (SchemaObject.table t).Apart o) :
    t.name.identity ∉ (os.filterMap tableEntryOf?).map Prod.fst := by
  intro hm
  obtain ⟨e, he, hname⟩ := List.mem_map.mp hm
  obtain ⟨o, ho, hoe⟩ := List.mem_filterMap.mp he
  refine (h o ho).1 ?_
  rw [tableEntryOf?_key hoe, hname]
  rfl

theorem indexName_notMem {x : SchemaObject} {os : List SchemaObject} (h : ∀ o ∈ os, x.Apart o)
    {name : String} (hx : name ∈ x.indexNames) :
    name ∉ (os.flatMap indexEntries).map Prod.fst := by
  rw [List.map_flatMap]
  intro hm
  obtain ⟨o, ho, hn⟩ := List.mem_flatMap.mp hm
  exact (h o ho).2 name hx hn

theorem avoids_between (hl : ∀ o ∈ l, (SchemaObject.table t).Apart o)
    (hr : ∀ o ∈ r, (SchemaObject.table t).Apart o) {c : Constraint} (hc : c ∈ t.constraints) :
    (between l r).Avoids c := fun hi =>
  ⟨indexName_notMem hl (mem_indexNames_of_isIndex hc hi),
    indexName_notMem hr (mem_indexNames_of_isIndex hc hi)⟩

theorem tables_isSome {os : List SchemaObject} (h : .table t ∈ os) :
    ((ofObjects os).tables t.name.identity).isSome = true := by
  simp only [ofObjects, Store.ofList_apply, List.lookup_isSome_iff, List.mem_filterMap]
  exact ⟨_, ⟨_, h, rfl⟩, by simp⟩

theorem exec_createIndex (hl : ∀ o ∈ l, (SchemaObject.index i).Apart o)
    (hr : ∀ o ∈ r, (SchemaObject.index i).Apart o)
    (ht : ∃ t, .table t ∈ l ++ r ∧ t.name.identity = i.table.identity) :
    (ofObjects (l ++ r)).exec (.createIndex i) = some (ofObjects (l ++ .index i :: r)) := by
  have hname : i.name.identity ∈ (SchemaObject.index i).indexNames := by
    simp [indexNames, indexEntries]
  have hfree : (ofObjects (l ++ r)).indexes i.name.identity = none := by
    rw [ofObjects_append]
    refine Store.ofList_eq_none ?_
    rw [List.map_append, List.mem_append, not_or]
    exact ⟨indexName_notMem hl hname, indexName_notMem hr hname⟩
  have hfound : ((ofObjects (l ++ r)).tables (IndexState.of i).table).isSome = true := by
    obtain ⟨t, htable, hid⟩ := ht
    show ((ofObjects (l ++ r)).tables i.table.identity).isSome = true
    rw [← hid]
    exact tables_isSome htable
  simp only [exec, hfree, Option.isSome_none, Bool.and_false, Bool.false_eq_true, if_false]
  rw [ofObjects_index, ofObjects_append]
  exact addIndex_ofList hfound (indexName_notMem hl hname) (indexName_notMem hr hname)

theorem foldlM_addColumn {s : Surroundings} {table : String} (constraints : List Constraint)
    (h : table ∉ s.tablesLeft.map Prod.fst) (rest done : List Column)
    (hn : ((done ++ rest).map (·.name.name)).Nodup) :
    rest.foldlM (addColumn table) (s.around table (done.map Column.entry) constraints) =
      some (s.around table ((done ++ rest).map Column.entry) constraints) := by
  induction rest generalizing done with
  | nil => simp
  | cons c rest ih =>
      have hc : c.name.name ∉ (done.map Column.entry).map Prod.fst := by
        rw [List.map_append, List.map_cons, List.nodup_append] at hn
        intro hm
        rw [List.map_map] at hm
        exact hn.2.2 _ hm _ (by simp) rfl
      have hadd : (s.around table (done.map Column.entry ++ []) constraints).addColumn table c =
          some (s.around table (done.map Column.entry ++ [c.entry]) constraints) :=
        Surroundings.addColumn_around h hc (by simp)
      have hrest := ih (done ++ [c]) (by simpa using hn)
      rw [List.append_nil] at hadd
      rw [List.foldlM_cons, hadd]
      simpa using hrest

theorem foldlM_addConstraint {s : Surroundings} {table : String}
    (columns : List (String × ColumnState)) (h : table ∉ s.tablesLeft.map Prod.fst)
    (rest done : List Constraint) (hn : ((done ++ rest).map (·.name.name)).Nodup)
    (hs : ∀ c ∈ rest, s.Avoids c) :
    rest.foldlM (addConstraint table) (s.around table columns done) =
      some (s.around table columns (done ++ rest)) := by
  induction rest generalizing done with
  | nil => simp
  | cons c rest ih =>
      have hc : c.name.name ∉ done.map (·.name.name) := by
        rw [List.map_append, List.map_cons, List.nodup_append] at hn
        exact fun hm => hn.2.2 _ hm _ (by simp) rfl
      have hadd : (s.around table columns (done ++ [])).addConstraint table c =
          some (s.around table columns (done ++ [c])) :=
        Surroundings.addConstraint_around h hc (by simp) (hs c (by simp))
      have hrest := ih (done ++ [c]) (by simpa using hn) fun c hm => hs c (by simp [hm])
      rw [List.append_nil] at hadd
      rw [List.foldlM_cons, hadd]
      simpa using hrest

theorem exec_createTable (hl : ∀ o ∈ l, (SchemaObject.table t).Apart o)
    (hr : ∀ o ∈ r, (SchemaObject.table t).Apart o)
    (hcolumns : (t.columns.map (·.name.name)).Nodup)
    (hconstraints : (t.constraints.map (·.name.name)).Nodup) :
    (ofObjects (l ++ r)).exec (.createTable t) = some (ofObjects (l ++ .table t :: r)) := by
  have hfree : (ofObjects (l ++ r)).tables t.name.identity = none := by
    refine Store.ofList_eq_none ?_
    rw [List.filterMap_append, List.map_append, List.mem_append, not_or]
    exact ⟨table_notMem hl, table_notMem hr⟩
  have hadd : (ofObjects (l ++ r)).tables.add t.name.identity .empty =
      some ((between l r).around t.name.identity [] []).tables := by
    simpa [ofObjects, between, Surroundings.around, TableState.empty] using
      Store.add_ofList _ _ _ TableState.empty (table_notMem hl) (table_notMem hr)
  have hcols := foldlM_addColumn (s := between l r) [] (table_notMem hl)
    t.columns [] hcolumns
  have hcons := foldlM_addConstraint (s := between l r) (t.columns.map Column.entry) (table_notMem hl)
    t.constraints [] hconstraints fun c hc => avoids_between hl hr hc
  have hindexes : (ofObjects (l ++ r)).indexes =
      ((between l r).around t.name.identity [] []).indexes := by
    simp [ofObjects, between, Surroundings.around]
  simp only [exec, hfree, Option.isSome_none, Bool.and_false, Bool.false_eq_true, if_false,
    createTable, hadd, hindexes, Option.bind_eq_bind, Option.bind_some]
  rw [ofObjects_table]
  simp only [List.map_nil, List.nil_append] at hcols hcons
  rw [hcols, Option.bind_some, hcons]

theorem exec_dropIndex {onTable : Option ObjectName} (hl : ∀ o ∈ l, (SchemaObject.index i).Apart o)
    (hr : ∀ o ∈ r, (SchemaObject.index i).Apart o)
    (ht : onTable.all (·.identity == i.table.identity) = true) :
    (ofObjects (l ++ .index i :: r)).exec (.dropIndex false i.name onTable) =
      some (ofObjects (l ++ r)) := by
  have hname : i.name.identity ∈ (SchemaObject.index i).indexNames := by
    simp [indexNames, indexEntries]
  rw [exec, ofObjects_index, ofObjects_append, Bool.false_and]
  refine dropIndex_ofList (indexName_notMem hl hname) (indexName_notMem hr hname) ?_
  cases onTable with
  | none => rfl
  | some table => exact ht

-- The indexes of the table go with it. An index of its own has to be gone before.
theorem exec_dropTable (hl : ∀ o ∈ l, (SchemaObject.table t).Apart o)
    (hr : ∀ o ∈ r, (SchemaObject.table t).Apart o)
    (hi : ∀ i, .index i ∈ l ++ r → i.table.identity ≠ t.name.identity) :
    (ofObjects (l ++ .table t :: r)).exec (.dropTable false t.name) = some (ofObjects (l ++ r)) := by
  have hother : ∀ o ∈ l ++ r, ∀ e ∈ o.indexEntries, (e.2.table != t.name.identity) = true := by
    intro o ho e he
    rw [bne_iff_ne]
    rcases indexEntries_table he with ⟨other, rfl, heq⟩ | ⟨i, rfl, heq⟩
    · have hapart : (SchemaObject.table t).Apart (.table other) := by
        rcases List.mem_append.mp ho with ho | ho
        · exact hl _ ho
        · exact hr _ ho
      intro h
      exact hapart.1 (congrArg ObjectKey.table (h.symm.trans heq))
    · rw [heq]
      exact hi i ho
  have hown : ∀ e ∈ (SchemaObject.table t).indexEntries,
      (e.2.table != t.name.identity) = false := by
    intro e he
    obtain ⟨c, -, hc⟩ := List.mem_filterMap.mp he
    simp [Constraint.indexEntryOf?_table hc]
  have htables := Store.remove_ofList _ _ t.name.identity (TableState.of t) (table_notMem hl)
    (table_notMem hr)
  have hindexes := Store.filter_ofList (p := fun i : IndexState => i.table != t.name.identity)
    (l := l.flatMap indexEntries) (m := (SchemaObject.table t).indexEntries)
    (r := r.flatMap indexEntries)
    (fun e he => by
      obtain ⟨o, ho, hoe⟩ := List.mem_flatMap.mp he
      exact hother o (by simp [ho]) e hoe)
    hown
    (fun e he => by
      obtain ⟨o, ho, hoe⟩ := List.mem_flatMap.mp he
      exact hother o (by simp [ho]) e hoe)
    (fun e he => indexName_notMem hr (List.mem_map_of_mem he))
  simp only [exec, Bool.false_and, Bool.false_eq_true, if_false, dropTable, ofObjects,
    List.filterMap_append, List.filterMap_cons, tableEntryOf?_table, htables, Option.map_some,
    List.flatMap_append, List.flatMap_cons] at hindexes ⊢
  rw [← List.append_assoc, hindexes]

end

end Catalog

end SchemaDiff
