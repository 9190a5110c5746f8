import SchemaDiff.Proofs.Migration.Hints
import SchemaDiff.Proofs.Migration.Respelling

namespace SchemaDiff

-- What tables and columns are called. A column is looked up under the old name of its table.
structure Renaming where
  table : String → String
  column : String → String → String

section Renamed

variable (r : Renaming)

-- How the new names are written is left open. They stand here without quotes.
def ObjectName.renamed (n : ObjectName) : ObjectName :=
  .ofIdent (.bare (r.table n.identity))

def ColumnIdent.listRenamed (table : String) (columns : List ColumnIdent) : List ColumnIdent :=
  columns.map fun c => { c with ident := .bare (r.column table c.ident.name) }

def Reference.renamed (target : Reference) : Reference :=
  { target with
    table := target.table.renamed r
    columns := ColumnIdent.listRenamed r target.table.identity target.columns }

def Rule.renamed (table : String) : Rule → Rule
  | primaryKey columns => primaryKey (ColumnIdent.listRenamed r table columns)
  | foreignKey columns target =>
      foreignKey (ColumnIdent.listRenamed r table columns) (target.renamed r)
  | unique columns => unique (ColumnIdent.listRenamed r table columns)
  | check body => check body
  | index isUnique columns => index isUnique (ColumnIdent.listRenamed r table columns)

def Constraint.renamed (table : String) (c : Constraint) : Constraint :=
  { c with rule := c.rule.renamed r table }

def Column.renamed (table : String) (c : Column) : Column :=
  { c with name := .bare (r.column table c.name.name) }

def CreateTable.renamed (t : CreateTable) : CreateTable :=
  { t with
    name := t.name.renamed r
    columns := t.columns.map (Column.renamed r t.name.identity)
    constraints := t.constraints.map (Constraint.renamed r t.name.identity) }

def CreateIndex.renamed (i : CreateIndex) : CreateIndex :=
  { i with
    table := i.table.renamed r
    columns := ColumnIdent.listRenamed r i.table.identity i.columns }

end Renamed

namespace Migration

open SchemaObject

-- The object with new names for tables and columns wherever they stand. The names of constraints and
-- indexes stay, and so do expressions.
inductive SchemaObject.RenamedTo (r : Renaming) : SchemaObject → SchemaObject → Prop
  | table {t u : CreateTable} (h : u.unquoted = (t.renamed r).unquoted) :
      RenamedTo r (.table t) (.table u)
  | index {i j : CreateIndex} (h : j.unquoted = (i.renamed r).unquoted) :
      RenamedTo r (.index i) (.index j)

-- The schema with its objects renamed one by one.
def RenamedTo (r : Renaming) (before after : Script) : Prop :=
  ∃ old new : List SchemaObject, before = old.map statement ∧ after = new.map statement ∧
    List.Forall₂ (SchemaObject.RenamedTo r) old new

-- What the hints say. Those for columns go by the new name of the table.
def Options.renaming (o : Options) : Renaming where
  table := newName (o.tableRenames.map fun r => (r.old, r.new))
  column table := newName ((o.columnRenamesOf
    (newName (o.tableRenames.map fun r => (r.old, r.new)) table)).map fun r => (r.old, r.new))

-- The hints are for tables and columns of the schema, at most one for each of them, and the new names
-- are not in use.
structure Options.Fresh (o : Options) (s : Script) : Prop where
  oldTables : (o.tableRenames.map (·.old)).Nodup
  newTables : (o.tableRenames.map (·.new)).Nodup
  tables : ∀ r ∈ o.tableRenames, r.old ∈ tableNames s ∧ r.new ∉ tableNames s
  oldColumns : (o.columnRenames.map fun r => (r.table, r.old)).Nodup
  newColumns : (o.columnRenames.map fun r => (r.table, r.new)).Nodup
  columns : ∀ r ∈ o.columnRenames, ∃ t, .table t ∈ objects s ∧
    o.renaming.table t.name.identity = r.table ∧ r.old ∈ (SchemaObject.table t).columnNames ∧
      r.new ∉ (SchemaObject.table t).columnNames

section Names

variable {pairs : List (String × String)} {names : List String}

theorem newName_of_mem (h : (pairs.map Prod.fst).Nodup) {q : String × String} (hq : q ∈ pairs) :
    newName pairs q.1 = q.2 := by
  rw [newName, (TablePair.find?_name_eq_some h).mpr ⟨hq, rfl⟩]
  rfl

-- Only a fresh name is given.
theorem newName_eq_or (pairs : List (String × String)) (name : String) :
    (∃ q ∈ pairs, q.1 = name ∧ newName pairs name = q.2) ∨
      (∀ q ∈ pairs, q.1 ≠ name) ∧ newName pairs name = name := by
  unfold newName
  cases h : pairs.find? (·.1 == name) with
  | none => exact .inr ⟨by simpa using h, rfl⟩
  | some q =>
      exact .inl ⟨q, List.mem_of_find?_eq_some h, by simpa using List.find?_some h, rfl⟩

variable (hfree : ∀ q ∈ pairs, q.2 ∉ names)
include hfree

-- Fresh names keep names apart.
theorem newName_inj (hnew : (pairs.map Prod.snd).Nodup) {a b : String} (ha : a ∈ names)
    (hb : b ∈ names) (h : newName pairs a = newName pairs b) : a = b := by
  rcases newName_eq_or pairs a with ⟨q, hq, rfl, hqa⟩ | ⟨-, hqa⟩ <;>
    rcases newName_eq_or pairs b with ⟨q', hq', rfl, hqb⟩ | ⟨-, hqb⟩ <;>
    rw [hqa, hqb] at h
  · rw [List.inj_on_of_nodup_map hnew hq hq' h]
  · exact absurd (h ▸ hb) (hfree q hq)
  · exact absurd (h ▸ ha) (hfree q' hq')
  · exact h

-- Nothing has a name any longer that was taken away.
theorem newName_ne {q : String × String} (hq : q ∈ pairs) (hthere : q.1 ∈ names) (a : String) :
    newName pairs a ≠ q.1 := by
  intro h
  rcases newName_eq_or pairs a with ⟨q', hq', -, hname⟩ | ⟨hnone, hname⟩
  · exact hfree q' hq' (hname ▸ h ▸ hthere)
  · exact hnone q hq (h.symm.trans hname)

end Names

-- The code renames the columns of a table by the hints for it.
section Columns

variable (d : Dialect) (o : Options) (table : String)

theorem renaming_column (column : String) : o.renaming.column table column =
    (((o.columnRenamesOf (o.renaming.table table)).find? (·.old == column)).map (·.new)).getD
      column := by
  simp [Options.renaming, newName, List.find?_map, Function.comp_def]

theorem name_renameColumn (column : Ident) :
    (renameColumn d (o.columnRenamesOf (o.renaming.table table)) column).name =
      o.renaming.column table column.name := by
  rw [renaming_column]
  unfold renameColumn
  split <;> rename_i h
  · rw [h, Option.map_some, Option.getD_some, Ident.name_derived]
  · rw [h, Option.map_none, Option.getD_none]

theorem unquoted_renameColumns (columns : List ColumnIdent) :
    (renameColumns d (o.columnRenamesOf (o.renaming.table table)) columns).map ColumnIdent.unquoted =
      (ColumnIdent.listRenamed o.renaming table columns).map ColumnIdent.unquoted := by
  simp [renameColumns, ColumnIdent.listRenamed, ColumnIdent.unquoted, Ident.unquoted,
    name_renameColumn, Ident.bare]

theorem unquoted_renameTable (name : ObjectName) :
    (renameTable d o.tableRenames name).unquoted = (name.renamed o.renaming).unquoted := by
  have hname := identity_renameTable d o.tableRenames name
  rw [← newName_eq] at hname
  exact congrArg (fun name => ObjectName.ofIdent (.bare name)) hname

end Columns

end Migration

end SchemaDiff
