import SchemaDiff.Proofs.Migration.Matching
import SchemaDiff.Proofs.Migration.Renaming

namespace SchemaDiff.Migration

open SchemaObject

section Names

variable {renames : List TableRename} {table new : String}

theorem newTableName?_eq_none :
    newTableName? renames table = none ↔ ∀ r ∈ renames, r.old ≠ table := by
  simp [newTableName?]

theorem exists_of_newTableName? (h : newTableName? renames table = some new) :
    ∃ r ∈ renames, r.old = table ∧ r.new = new := by
  obtain ⟨r, hr, hnew⟩ := Option.map_eq_some_iff.mp h
  exact ⟨r, List.mem_of_find?_eq_some hr, by simpa using List.find?_some hr, hnew⟩

-- A hinted table has a new name, which is the one of the first hint for it.
theorem exists_newTableName? {r : TableRename} (hr : r ∈ renames) :
    ∃ r' ∈ renames, newTableName? renames r.old = some r'.new := by
  obtain ⟨new, hnew⟩ := Option.ne_none_iff_exists'.mp
    fun hnone => newTableName?_eq_none.mp hnone r hr rfl
  obtain ⟨r', hr', -, rfl⟩ := exists_of_newTableName? hnew
  exact ⟨r', hr', hnew⟩

theorem newTableName?_of_mem (h : (renames.map (·.old)).Nodup) {r : TableRename}
    (hr : r ∈ renames) : newTableName? renames r.old = some r.new := by
  rw [newTableName?, (TablePair.find?_name_eq_some h).mpr ⟨hr, rfl⟩, Option.map_some]

theorem identity_renameTable (d : Dialect) (renames : List TableRename) (table : ObjectName) :
    (renameTable d renames table).identity =
      (newTableName? renames table.identity).getD table.identity := by
  unfold renameTable
  split <;> rename_i h
  · rw [h, Option.getD_some, ObjectName.identity, Ident.name_derived]
  · rw [h, Option.getD_none]

theorem newName_eq (renames : List TableRename) (table : String) :
    newName (renames.map fun r => (r.old, r.new)) table =
      (newTableName? renames table).getD table := by
  simp [newName, newTableName?, List.find?_map, Function.comp_def]

end Names

namespace SchemaPair

variable {p : SchemaPair}

-- A table of the old schema has a place in the new one under the name that it gets.
theorem isSome_old?_of_hint (hold : (p.options.tableRenames.map (·.old)).Nodup)
    {r : TableRename} (hr : r ∈ p.options.tableRenames) (hthere : r.old ∈ tableNames p.before) :
    (p.old? (.table r.new)).isSome := by
  obtain ⟨t, ht, hname⟩ := mem_tableNames.mp hthere
  refine List.find?_isSome.mpr ⟨_, List.mem_reverse.mpr ht, ?_⟩
  simp [oldKey, key, hname, newTableName?_of_mem hold hr]

end SchemaPair

-- The statement that carries a hint out.
def TableRename.IsDoneBy (r : TableRename) : Statement → Prop
  | .alterTable old (.renameTable new) => old.identity = r.old ∧ new.name = r.new
  | _ => False

def ColumnRename.IsDoneBy (r : ColumnRename) : Statement → Prop
  | .alterTable table (.renameColumn old new) =>
      table.identity = r.table ∧ old.name = r.old ∧ new.name = r.new
  | _ => False

theorem SchemaPair.isDoneBy_renames {p : SchemaPair}
    (h : ∀ r ∈ p.options.tableRenames, p.tableHintRefusal? r = none) :
    List.Forall₂ TableRename.IsDoneBy p.options.tableRenames (Step.statements p.renames) := by
  have hnames := (names_renamedTables h).symm
  rw [map_eq_map_iff] at hnames
  rw [statements_renames, List.forall₂_map_right_iff]
  refine hnames.imp fun r names heq => ?_
  obtain ⟨hold, hnew⟩ := Prod.mk.inj heq
  exact ⟨hold.symm, hnew.symm⟩

end SchemaDiff.Migration
