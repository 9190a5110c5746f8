import SchemaDiff.Proofs.Catalog.Objects
import SchemaDiff.Proofs.Watch

namespace SchemaDiff

-- The indexes of a database.
abbrev Indexes := Store IndexState

namespace Statement

-- The indexes that come with a statement. Some of them stand in a table.
def indexEntries : Statement → List (String × IndexState)
  | createTable t => t.constraints.filterMap (Constraint.indexEntryOf? t.name.identity)
  | createIndex i => [(i.name.identity, .of i)]
  | alterTable table (.addConstraint c _) => (c.indexEntryOf? table.identity).toList
  | _ => []

end Statement

namespace Indexes

-- What becomes of the index of one name, if there is one. An index that is there already is not
-- created again, and an index goes with its table.
def execAt (name : String) (o : Option IndexState) : Statement → Option IndexState
  | .dropIndex _ index _ => if index.identity = name then none else o
  | .dropTable _ table => o.filter (·.table != table.identity)
  | .alterTable table (.renameTable new) =>
      o.map fun i => if i.table = table.identity then { i with table := new.name } else i
  | .alterTable table (.renameColumn old new) =>
      o.map fun i =>
        if i.table = table.identity then
          { i with columns := i.columns.map fun (column, order) =>
              (if column = old.name then new.name else column, order) }
        else i
  | s => o.or (s.indexEntries.lookup name)

-- An index is created where there is none, and dropped where there is one, on the table that the
-- statement gives.
def AdmitsAt (name : String) (o : Option IndexState) : Statement → Prop
  | .dropIndex _ index table =>
      index.identity = name → ∃ i ∈ o, ∀ t ∈ table, t.identity = i.table
  | s => (s.indexEntries.lookup name).isSome = true → o = none

def watchAt (name : String) : Watch (Option IndexState) := ⟨execAt name, AdmitsAt name⟩

def watch : Watch Indexes :=
  ⟨fun o s name => (watchAt name).exec (o name) s, fun o s => ∀ name, (watchAt name).Admits (o name) s⟩

-- What the statements of a schema lead to.
def of (s : Script) : Indexes :=
  watch.execAll .empty s

-- No name depends on another one.
theorem leads_iff {o o' : Indexes} {m : Script} :
    watch.Leads o m o' ↔ ∀ name, (watchAt name).Leads (o name) m (o' name) := by
  induction m generalizing o with
  | nil => simp [funext_iff]
  | cons s m ih =>
      simp only [Watch.leads_cons, ih]
      constructor
      · exact fun h name => ⟨h.1 name, h.2 name⟩
      · exact fun h => ⟨fun name => (h name).1, fun name => (h name).2⟩

theorem execAll_apply (o : Indexes) (m : Script) (name : String) :
    watch.execAll o m name = (watchAt name).execAll (o name) m := by
  induction m generalizing o with
  | nil => rfl
  | cons s m ih => rw [Watch.execAll_cons, Watch.execAll_cons, ih]; rfl

section

open Migration.SchemaObject

variable {name : String} {o : Option IndexState} {x : Migration.SchemaObject}

theorem exec_statement : (watchAt name).exec o x.statement = o.or (x.indexEntries.lookup name) := by
  cases x <;> rfl

theorem lookup_isSome_iff : (x.indexEntries.lookup name).isSome = true ↔ name ∈ x.indexNames := by
  rw [List.lookup_isSome_iff, indexNames, List.mem_map]
  exact exists_congr fun e => and_congr_right fun _ => by rw [beq_iff_eq, eq_comm]

theorem admits_statement :
    (watchAt name).Admits o x.statement ↔ (name ∈ x.indexNames → o = none) := by
  rw [← lookup_isSome_iff]
  cases x <;> rfl

-- An object without an index of that name brings nothing, one with it brings it.
theorem leads_statement_of_not_mem (h : name ∉ x.indexNames) :
    (watchAt name).Silent [x.statement] := by
  intro o
  have hnone : x.indexEntries.lookup name = none := Store.lookup_eq_none h
  rw [Watch.leads_singleton, admits_statement, exec_statement, hnone, Option.or_none]
  exact ⟨fun hm => absurd hm h, rfl⟩

theorem leads_statement_of_mem (h : name ∈ x.indexNames) {o' : Option IndexState} :
    (watchAt name).Leads o [x.statement] o' ↔ o = none ∧ o' = x.indexEntries.lookup name := by
  rw [Watch.leads_singleton, admits_statement, exec_statement]
  constructor
  · rintro ⟨hfree, rfl⟩
    exact ⟨hfree h, by rw [hfree h, Option.none_or]⟩
  · rintro ⟨rfl, rfl⟩
    exact ⟨fun _ => rfl, Option.none_or⟩

-- A schema has the indexes that its objects bring.
theorem of_apply {s : Script} (hobjects : (Migration.objects s).map statement = s) (name : String) :
    Indexes.of s name = ((Migration.objects s).flatMap indexEntries).lookup name := by
  have hfold : ∀ (os : List Migration.SchemaObject) (o : Option IndexState),
      (watchAt name).execAll o (os.map statement) =
        o.or ((os.flatMap indexEntries).lookup name) := by
    intro os
    induction os with
    | nil => simp [Watch.execAll]
    | cons x os ih =>
        intro o
        rw [List.map_cons, Watch.execAll_cons, ih, exec_statement, List.flatMap_cons,
          List.lookup_append, Option.or_assoc]
  rw [Indexes.of, execAll_apply, ← hobjects, hfold, hobjects]
  rfl

end

end Indexes

end SchemaDiff
