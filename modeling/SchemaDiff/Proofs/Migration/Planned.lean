import SchemaDiff.Proofs.Migration.Unhinted

namespace SchemaDiff

-- Rules about single rows. They can be added without a look at the rows that exist.
def Rule.IsAboutRows : Rule → Prop
  | foreignKey _ _ | check _ => True
  | _ => False

end SchemaDiff

namespace SchemaDiff.Migration

open Step

namespace TablePair

-- The statements that can be planned for a table that both schemas have.
inductive Plans (p : TablePair) : Statement → Prop
  | renameConstraint {old new : Constraint} (hold : old ∈ p.oldConstraints)
      (hnew : new ∈ p.new.constraints) (hcan : p.canRename old = true) :
      Plans p (.alterTable p.new.name (.renameConstraint old.name new.name))
  | dropIndex {c : Constraint} (hc : c ∈ p.oldConstraints) (hindex : c.isIndex = true) :
      Plans p (.dropIndex false (.ofIdent c.name)
        (if p.dialect.dropsIndexOnTable then some p.new.name else none))
  | dropConstraint {c : Constraint} (hc : c ∈ p.oldConstraints) (hindex : c.isIndex = false) :
      Plans p (.alterTable p.new.name (.dropConstraint c.name))
  | renameColumn {old new : Column} (hold : old ∈ p.old.columns) (hnew : new ∈ p.new.columns) :
      Plans p (.alterTable p.new.name (.renameColumn old.name new.name))
  | dropColumn {old : Column} (hold : old ∈ p.oldColumns) :
      Plans p (.alterTable p.new.name (.dropColumn old.name))
  | setDataType {new : Column} (hnew : new ∈ p.new.columns)
      (hstyle : p.dialect.alterColumnStyle = .standard) :
      Plans p (.alterTable p.new.name (.alterColumn new.name (.setDataType new.dataType)))
  | changeDefault {new : Column} (hnew : new ∈ p.new.columns) :
      Plans p (.alterTable p.new.name
        (.alterColumn new.name (new.default.elim .dropDefault .setDefault)))
  | changeNull {new : Column} (hnew : new ∈ p.new.columns)
      (hstyle : p.dialect.alterColumnStyle = .standard) :
      Plans p (.alterTable p.new.name
        (.alterColumn new.name (if new.notNull then .setNotNull else .dropNotNull)))
  | modifyColumn {new : Column} (hnew : new ∈ p.new.columns)
      (hstyle : p.dialect.alterColumnStyle = .modify) :
      Plans p (.alterTable p.new.name (.modifyColumn new))
  | addColumn {new : Column} (hnew : new ∈ p.new.columns) :
      Plans p (.alterTable p.new.name (.addColumn new))
  | createIndex {c : Constraint} {isUnique : Bool} {columns : List ColumnIdent}
      (hc : c ∈ p.new.constraints) (hrule : c.rule = .index isUnique columns) :
      Plans p (.createIndex ⟨isUnique, false, .ofIdent c.name, p.new.name, none, columns, none⟩)
  | addConstraint {c : Constraint} {notValid : Bool} (hc : c ∈ p.new.constraints)
      (hindex : c.isIndex = false)
      (hvalid : notValid = true → p.dialect.hasNotValid = true ∧ c.rule.IsAboutRows) :
      Plans p (.alterTable p.new.name (.addConstraint c notValid))

variable {p : TablePair}

theorem mem_of_moved? {old new : Constraint} (h : p.moved? old = some new) :
    new ∈ p.new.constraints := by
  simp only [moved?, Option.bind_eq_bind, Option.bind_eq_some_iff] at h
  obtain ⟨name, -, h⟩ := h
  split at h
  · cases h
  · obtain ⟨found, hfound, h⟩ := Option.bind_eq_some_iff.mp h
    split at h
    · cases h
      exact List.mem_of_find?_eq_some hfound
    · cases h

theorem plans_renameConstraintSteps : Emits p.Plans p.renameConstraintSteps := by
  refine .flatMap fun old hold => ?_
  split
  · rename_i new hmoved
    split
    · rename_i hcan
      exact .alter (.renameConstraint hold (mem_of_moved? hmoved) hcan)
    · exact .of_statements_nil rfl
  · exact .of_statements_nil rfl

theorem plans_dropConstraint {c : Constraint} (hc : c ∈ p.oldConstraints) :
    Emits p.Plans (p.dropConstraint c) := by
  rw [TablePair.dropConstraint]
  split
  · rename_i hindex
    exact .announce (.dropIndex hc hindex)
  · rename_i hindex
    exact .alter (.dropConstraint hc (by simpa using hindex))

theorem plans_dropConstraintSteps : Emits p.Plans p.dropConstraintSteps := by
  refine .flatMap fun old hold => ?_
  split
  · exact plans_dropConstraint hold
  · split
    · exact .note (plans_dropConstraint hold)
    · exact .of_statements_nil rfl

theorem plans_renameColumnStep (rename : ColumnRename) :
    Emits p.Plans (p.renameColumnStep rename) := by
  rw [renameColumnStep]
  split
  · rename_i old new hold hnew
    split
    · exact .of_statements_nil rfl
    · exact .alter (.renameColumn (List.mem_of_find?_eq_some hold) (List.mem_of_find?_eq_some hnew))
  · exact .of_statements_nil rfl

theorem plans_dropColumnSteps : Emits p.Plans p.dropColumnSteps := by
  refine .flatMap fun old hold => ?_
  split
  · exact .alter (.dropColumn hold)
  · exact .of_statements_nil rfl

theorem plans_alterColumnStep {new : Column} (hnew : new ∈ p.new.columns) (old : Column) :
    Emits p.Plans (p.alterColumnStep old new) := by
  have hdefault : Emits p.Plans (p.defaultSteps old new) := by
    rw [defaultSteps]
    split
    · exact .of_statements_nil rfl
    · exact .alter (.changeDefault hnew)
  rw [alterColumnStep]
  split
  · rename_i hstyle
    split
    · exact .alter (.modifyColumn hnew hstyle)
    · exact hdefault
  · rename_i hstyle
    split
    · exact .of_statements_nil rfl
    · refine .append (.append ?_ hdefault) ?_
      · split
        · exact .of_statements_nil rfl
        · exact .alter (.setDataType hnew hstyle)
      · rw [nullSteps]
        split
        · exact .of_statements_nil rfl
        · exact .alter (.changeNull hnew hstyle)

theorem plans_columnSteps : Emits p.Plans p.columnSteps := by
  refine .append (.append (.append ?_ plans_dropColumnSteps) ?_) ?_
  · exact .flatMap fun rename _ => plans_renameColumnStep rename
  · refine .flatMap fun new hnew => ?_
    split
    · exact plans_alterColumnStep hnew _
    · exact .of_statements_nil rfl
  · refine .flatMap fun new hnew => ?_
    split
    · exact .alter (.addColumn hnew)
    · exact .of_statements_nil rfl

theorem plans_addConstraint {c : Constraint} (hc : c ∈ p.new.constraints) :
    Emits p.Plans (p.addConstraint c) := by
  have halter : ∀ notValid, c.isIndex = false →
      (notValid = true → p.dialect.hasNotValid = true ∧ c.rule.IsAboutRows) →
      Emits p.Plans (p.alter (.addConstraint c notValid)) :=
    fun _ hindex hvalid => .alter (.addConstraint hc hindex hvalid)
  rw [TablePair.addConstraint]
  cases hrule : c.rule with
  | index isUnique columns => exact .announce (.createIndex hc hrule)
  | foreignKey columns target =>
      exact halter _ (by rw [Constraint.isIndex, hrule]; rfl)
        fun h => ⟨(Bool.and_eq_true_iff.mp h).2, by rw [hrule]; trivial⟩
  | check body =>
      exact halter _ (by rw [Constraint.isIndex, hrule]; rfl)
        fun h => ⟨(Bool.and_eq_true_iff.mp h).2, by rw [hrule]; trivial⟩
  | primaryKey columns => exact halter _ (by rw [Constraint.isIndex, hrule]; rfl) (by simp)
  | unique columns => exact halter _ (by rw [Constraint.isIndex, hrule]; rfl) (by simp)

theorem plans_addConstraintSteps : Emits p.Plans p.addConstraintSteps := by
  refine .flatMap fun new hnew => ?_
  split
  · exact plans_addConstraint hnew
  · exact .of_statements_nil rfl

theorem plans_steps : Emits p.Plans p.steps := by
  have hoptions : Emits p.Plans p.optionSteps := by
    rw [optionSteps]
    split <;> exact .of_statements_nil rfl
  exact .append (.append (.append (.append (.append hoptions (.of_statements_nil rfl))
    plans_renameConstraintSteps) plans_dropConstraintSteps) plans_columnSteps)
    plans_addConstraintSteps

end TablePair

namespace SchemaPair

-- The statements that can be planned for two schemas.
inductive Plans (p : SchemaPair) : Statement → Prop
  | renameTable {old new : CreateTable} (hold : .table old ∈ objects p.before)
      (hnew : .table new ∈ objects p.after) :
      Plans p (.alterTable old.name (.renameTable new.name.name))
  | drop {old : SchemaObject} (hold : old ∈ objects p.before) :
      Plans p (old.dropStatement p.dialect (Migration.renameTable p.dialect p.options.tableRenames))
  | create {new : SchemaObject} (hnew : new ∈ objects p.after) : Plans p new.statement
  | alter {old new : CreateTable} {s : Statement} (hold : .table old ∈ objects p.before)
      (hnew : .table new ∈ objects p.after) (h : (p.tablePair old new).Plans s) : Plans p s

theorem mem_of_table? {s : Script} {name : String} {t : CreateTable} (h : table? s name = some t) :
    .table t ∈ objects s := by
  obtain ⟨statement, hmem, hsome⟩ := List.exists_of_findSome?_eq_some h
  refine List.mem_filterMap.mpr ⟨statement, hmem, ?_⟩
  split at hsome
  · split at hsome
    · cases hsome
      rfl
    · cases hsome
  · cases hsome

variable {p : SchemaPair}

theorem plans_renames : Emits p.Plans p.renames := by
  refine .flatMap fun rename _ => ?_
  split
  · rename_i old new hold hnew
    exact .note (.alter (.renameTable (mem_of_table? hold) (mem_of_table? hnew)))
  · exact .of_statements_nil rfl

theorem plans_alterSteps {new : SchemaObject} (hnew : new ∈ objects p.after) :
    Emits p.Plans (p.alterSteps new) := by
  unfold alterSteps
  split
  · split
    · exact .note (.emit (.create hnew))
    · exact .of_statements_nil rfl
  · rename_i old new hold
    have hmem : .table old ∈ objects p.before :=
      List.mem_reverse.mp (List.mem_of_find?_eq_some hold)
    exact fun s hs => .alter hmem hnew (TablePair.plans_steps s hs)
  · exact .of_statements_nil rfl

-- Whatever is planned is one of these statements.
theorem plans_steps : Emits p.Plans p.steps := by
  refine .append (.append (.append (.append ?_ plans_renames) ?_) ?_) ?_
  · exact .of_statements_nil (statements_refusals p)
  · exact .map_emit fun old hold => .drop (List.mem_reverse.mp (List.mem_filter.mp hold).1)
  · exact .map_emit fun new hnew => .create (List.mem_filter.mp hnew).1
  · exact .flatMap fun new hnew => plans_alterSteps hnew

end SchemaPair

end SchemaDiff.Migration
