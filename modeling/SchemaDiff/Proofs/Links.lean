import SchemaDiff.Proofs.Watch

namespace SchemaDiff

-- A foreign key that exists: the table that has it, its name, and the table that it refers to.
structure ForeignKey where
  table : String
  name : String
  target : String
deriving DecidableEq, Repr

namespace Constraint

def foreignKey? (table : String) (c : Constraint) : Option ForeignKey :=
  match c.rule with
  | .foreignKey _ target => some ⟨table, c.name.name, target.table.identity⟩
  | _ => none

end Constraint

namespace CreateTable

def foreignKeys (t : CreateTable) : List ForeignKey :=
  t.constraints.filterMap (Constraint.foreignKey? t.name.identity)

theorem table_of_mem_foreignKeys {t : CreateTable} {k : ForeignKey} (h : k ∈ t.foreignKeys) :
    k.table = t.name.identity := by
  obtain ⟨c, -, hc⟩ := List.mem_filterMap.mp h
  unfold Constraint.foreignKey? at hc
  split at hc
  · cases hc
    rfl
  · cases hc

end CreateTable

-- The tables of a database and the foreign keys between them.
structure Links where
  tables : List String
  keys : List ForeignKey
deriving DecidableEq, Repr

namespace Links

def empty : Links := ⟨[], []⟩

-- References follow a table that gets another name.
def renameTable (l : Links) (old new : String) : Links :=
  let follow (table : String) : String := if table = old then new else table
  ⟨l.tables.map follow, l.keys.map fun k => ⟨follow k.table, k.name, follow k.target⟩⟩

def alterTable (l : Links) (table : String) : TableChange → Links
  | .renameTable new => l.renameTable table new.name
  | .renameConstraint old new =>
      { l with keys := l.keys.map fun k =>
          if k.table = table ∧ k.name = old.name then { k with name := new.name } else k }
  | .addConstraint c _ => { l with keys := l.keys ++ (c.foreignKey? table).toList }
  | .dropConstraint name =>
      { l with keys := l.keys.filter fun k => !(k.table == table && k.name == name.name) }
  | _ => l

-- A table that is there already is not created again. The foreign keys of a table are dropped with
-- it, those that refer to it are not.
def exec (l : Links) : Statement → Links
  | .createTable t =>
      if t.name.identity ∈ l.tables then l
      else ⟨l.tables ++ [t.name.identity], l.keys ++ t.foreignKeys⟩
  | .dropTable _ table =>
      ⟨l.tables.filter (· != table.identity), l.keys.filter (·.table != table.identity)⟩
  | .alterTable table change => l.alterTable table.identity change
  | .createIndex _ | .dropIndex _ _ _ => l

-- No other table refers to a table that is dropped.
def Admits (l : Links) : Statement → Prop
  | .dropTable _ table => ∀ k ∈ l.keys, k.target = table.identity → k.table = table.identity
  | _ => True

def watch : Watch Links := ⟨exec, Admits⟩

-- What the statements of a schema lead to.
def of (s : Script) : Links :=
  watch.execAll .empty s

end Links

end SchemaDiff
