import SchemaDiff.Proofs.Migration.Passes

namespace SchemaDiff.Migration

open Step SchemaObject

namespace TablePair

-- Why a column is changed: a dropped column is not in the new version, an added one is not in the
-- old version, and what is set is not the same.
inductive ColumnReason (p : TablePair) : TableChange → Prop
  | dropColumn {old : Column} (hold : old ∈ p.old.columns)
      (hgone : p.new.column? old.name.name = none) : ColumnReason p (.dropColumn old.name)
  | setDataType {old new : Column} (hnew : new ∈ p.new.columns)
      (hold : p.old.column? new.name.name = some old)
      (hstyle : p.dialect.alterColumnStyle = .standard)
      (hne : old.dataType.sql ≠ new.dataType.sql) :
      ColumnReason p (.alterColumn new.name (.setDataType new.dataType))
  | changeDefault {old new : Column} (hnew : new ∈ p.new.columns)
      (hold : p.old.column? new.name.name = some old)
      (hstyle : p.dialect.alterColumnStyle = .modify → needsModify old new = false)
      (hne : old.default.map Expr.identity ≠ new.default.map Expr.identity) :
      ColumnReason p (.alterColumn new.name (new.default.elim .dropDefault .setDefault))
  | changeNull {old new : Column} (hnew : new ∈ p.new.columns)
      (hold : p.old.column? new.name.name = some old)
      (hstyle : p.dialect.alterColumnStyle = .standard) (hne : old.notNull ≠ new.notNull) :
      ColumnReason p (.alterColumn new.name (if new.notNull then .setNotNull else .dropNotNull))
  | modifyColumn {old new : Column} (hnew : new ∈ p.new.columns)
      (hold : p.old.column? new.name.name = some old)
      (hstyle : p.dialect.alterColumnStyle = .modify) (hne : needsModify old new = true) :
      ColumnReason p (.modifyColumn new)
  | addColumn {new : Column} (hnew : new ∈ p.new.columns)
      (hfresh : p.old.column? new.name.name = none) : ColumnReason p (.addColumn new)

-- Why a statement is there for a table that both schemas have. Constraints are dropped that have no
-- equal in the new version, and added that have none in the old one.
inductive Reason (p : TablePair) : Statement → Prop
  | dropIndex {c : Constraint} (hc : c ∈ p.old.constraints) (hindex : c.isIndex = true)
      (hgone : p.keeps c = false) :
      Reason p (.dropIndex false (.ofIdent c.name)
        (if p.dialect.dropsIndexOnTable then some p.new.name else none))
  | dropConstraint {c : Constraint} (hc : c ∈ p.old.constraints) (hindex : c.isIndex = false)
      (hgone : p.keeps c = false) :
      Reason p (.alterTable p.new.name (.dropConstraint c.name))
  | column {change : TableChange} (h : p.ColumnReason change) :
      Reason p (.alterTable p.new.name change)
  | createIndex {c : Constraint} {isUnique : Bool} {columns : List ColumnIdent}
      (hc : c ∈ p.new.constraints) (hrule : c.rule = .index isUnique columns)
      (hfresh : p.kept c = false) :
      Reason p (.createIndex ⟨isUnique, false, .ofIdent c.name, p.new.name, none, columns, none⟩)
  | addConstraint {c : Constraint} {notValid : Bool} (hc : c ∈ p.new.constraints)
      (hindex : c.isIndex = false) (hfresh : p.kept c = false) :
      Reason p (.alterTable p.new.name (.addConstraint c notValid))

variable {p : TablePair} (h : p.Unhinted)

theorem reason_dropConstraint {c : Constraint} (hc : c ∈ p.old.constraints)
    (hgone : p.keeps c = false) : Emits p.Reason (p.dropConstraint c) := by
  unfold dropConstraint
  split
  · rename_i hindex
    exact .announce (.dropIndex hc hindex hgone)
  · rename_i hindex
    exact .alter (.dropConstraint hc (by simpa using hindex) hgone)

theorem reason_addConstraint {c : Constraint} (hc : c ∈ p.new.constraints)
    (hfresh : p.kept c = false) : Emits p.Reason (p.addConstraint c) := by
  have halter : ∀ notValid, c.isIndex = false →
      Emits p.Reason (p.alter (.addConstraint c notValid)) :=
    fun _ hindex => .alter (.addConstraint hc hindex hfresh)
  unfold TablePair.addConstraint
  cases hrule : c.rule with
  | index isUnique columns => exact .announce (.createIndex hc hrule hfresh)
  | _ => exact halter _ (by rw [Constraint.isIndex, hrule]; rfl)

-- The statements about columns.
def ColumnStatement (p : TablePair) (s : Statement) : Prop :=
  ∃ change, s = .alterTable p.new.name change ∧ p.ColumnReason change

theorem reason_alterColumnStep {old new : Column} (hnew : new ∈ p.new.columns)
    (hold : p.old.column? new.name.name = some old) :
    Emits p.ColumnStatement (p.alterColumnStep old new) := by
  have hdefault : (p.dialect.alterColumnStyle = .modify → needsModify old new = false) →
      Emits p.ColumnStatement (p.defaultSteps old new) := by
    intro hstyle
    unfold defaultSteps
    split
    · exact .of_statements_nil rfl
    · rename_i hne
      exact .alter ⟨_, rfl, .changeDefault hnew hold hstyle hne⟩
  unfold alterColumnStep
  split
  · rename_i hstyle
    split
    · rename_i hmodify
      exact .alter ⟨_, rfl, .modifyColumn hnew hold hstyle hmodify⟩
    · rename_i hmodify
      exact hdefault fun _ => by simpa using hmodify
  · rename_i hstyle
    split
    · exact .of_statements_nil rfl
    · refine .append (.append ?_ (hdefault fun hmodify => by rw [hmodify] at hstyle; cases hstyle)) ?_
      · split
        · exact .of_statements_nil rfl
        · rename_i hne
          exact .alter ⟨_, rfl, .setDataType hnew hold hstyle hne⟩
      · unfold nullSteps
        split
        · exact .of_statements_nil rfl
        · rename_i hne
          exact .alter ⟨_, rfl, .changeNull hnew hold hstyle hne⟩

include h

theorem reason_dropConstraintSteps : Emits p.Reason p.dropConstraintSteps := by
  intro s hs
  rw [statements_dropConstraintSteps h, List.mem_flatMap] at hs
  obtain ⟨c, hc, hs⟩ := hs
  unfold constraintStatements at hs
  split at hs
  · cases hs
  · rename_i hgone
    exact reason_dropConstraint hc (by simpa using hgone) s hs

theorem reason_columnSteps : Emits p.ColumnStatement p.columnSteps := by
  refine .append (.append (.append ?_ ?_) ?_) ?_
  · rw [h.columnRenames]
    exact .of_statements_nil rfl
  · refine .flatMap fun old hold => ?_
    rw [h.oldColumns_eq] at hold
    split
    · rename_i hgone
      exact .alter ⟨_, rfl, .dropColumn hold (by simpa using hgone)⟩
    · exact .of_statements_nil rfl
  · refine .flatMap fun new hnew => ?_
    rw [h.oldColumn?_eq]
    split
    · rename_i old hold
      exact reason_alterColumnStep hnew hold
    · exact .of_statements_nil rfl
  · refine .flatMap fun new hnew => ?_
    rw [h.oldColumn?_eq]
    split
    · rename_i hfresh
      exact .alter ⟨_, rfl, .addColumn hnew (by simpa using hfresh)⟩
    · exact .of_statements_nil rfl

theorem reason_addConstraintSteps (hold : (p.old.constraints.map (·.name.name)).Nodup)
    (hnew : (p.new.constraints.map (·.name.name)).Nodup) :
    Emits p.Reason p.addConstraintSteps := by
  refine .flatMap fun c hc => ?_
  rw [adds_eq h hold hnew hc]
  split
  · rename_i hfresh
    exact reason_addConstraint hc (by simpa using hfresh)
  · exact .of_statements_nil rfl

theorem reason_steps (hold : (p.old.constraints.map (·.name.name)).Nodup)
    (hnew : (p.new.constraints.map (·.name.name)).Nodup) (hr : Step.refusal? p.steps = none) :
    Emits p.Reason p.steps := by
  have hcolumns : Emits p.Reason p.columnSteps := by
    intro s hs
    obtain ⟨change, rfl, hreason⟩ := reason_columnSteps h s hs
    exact .column hreason
  unfold steps
  rw [optionSteps_eq_nil hr, h.renameConstraintSteps_eq, List.append_nil]
  exact .append (.append (.append (.of_statements_nil rfl) (reason_dropConstraintSteps h)) hcolumns)
    (reason_addConstraintSteps h hold hnew)

end TablePair

namespace SchemaPair

-- Why a statement is there. An object is dropped that has no equal in the new schema and created
-- if it has none in the old one, where a table is the same under its name.
inductive Reason (p : SchemaPair) : Statement → Prop
  | dropTable {t : CreateTable} (ht : .table t ∈ objects p.before)
      (hgone : ∀ u, .table u ∈ objects p.after → u.name.identity ≠ t.name.identity) :
      Reason p (.dropTable false t.name)
  | dropIndex {i : CreateIndex} {onTable : Option ObjectName} (hi : .index i ∈ objects p.before)
      (hgone : ∀ j, .index j ∈ objects p.after → j.name.identity = i.name.identity →
        i.identity ≠ j.identity) :
      Reason p (.dropIndex false i.name onTable)
  | createTable {t : CreateTable} (ht : .table t ∈ objects p.after)
      (hfresh : ∀ u, .table u ∈ objects p.before → u.name.identity ≠ t.name.identity) :
      Reason p (.createTable t)
  | createIndex {i : CreateIndex} (hi : .index i ∈ objects p.after)
      (hfresh : ∀ j, .index j ∈ objects p.before → j.name.identity = i.name.identity →
        j.identity ≠ i.identity) :
      Reason p (.createIndex i)
  | alter {t u : CreateTable} {s : Statement} (ht : .table t ∈ objects p.before)
      (hu : .table u ∈ objects p.after) (hname : t.name.identity = u.name.identity)
      (h : (p.tablePair t u).Reason s) : Reason p s

variable {p : SchemaPair}

namespace Named

theorem reason_drops (h : p.Named) : ∀ s ∈ Step.statements p.drops, p.Reason s := by
  intro s hs
  rw [statements_drops h.options, List.mem_map] at hs
  obtain ⟨x, hx, rfl⟩ := hs
  obtain ⟨hmem, hdropped⟩ := List.mem_filter.mp hx
  have hmem : x ∈ objects p.before := List.mem_reverse.mp hmem
  cases x with
  | table t =>
      refine .dropTable hmem fun u hu hname => ?_
      exact (isDropped_table h.options t).mp hdropped (mem_tableNames.mpr ⟨u, hu, hname⟩)
  | index i =>
      refine .dropIndex hmem fun j hj hname hsame => ?_
      rw [h.isDropped_index.mpr ⟨j, hj, hname, hsame⟩] at hdropped
      exact Bool.false_ne_true hdropped

theorem reason_creates (h : p.Named) : ∀ s ∈ Step.statements p.creates, p.Reason s := by
  intro s hs
  rw [statements_creates, List.mem_map] at hs
  obtain ⟨x, hx, rfl⟩ := hs
  obtain ⟨hmem, hfresh⟩ := List.mem_filter.mp hx
  have hfresh := h.old?_eq_none.mp (Option.isNone_iff_eq_none.mp hfresh)
  cases x with
  | table t => exact .createTable hmem fun u hu hname => hfresh _ hu (congrArg ObjectKey.table hname)
  | index i =>
      exact .createIndex hmem fun j hj hname _ => hfresh _ hj (congrArg ObjectKey.index hname)

theorem reason_alterSteps (h : p.Named) {x : SchemaObject} (hx : x ∈ objects p.after) :
    Emits p.Reason (p.alterSteps x) := by
  cases hq : p.tablePair? x with
  | some q =>
      obtain ⟨hr, hold, hnew⟩ := h.steps_of_tablePair? hx hq
      obtain ⟨t, u, rfl, rfl, ht, hname⟩ := h.of_tablePair? hq
      rw [alterSteps_of_some hq]
      exact fun s hs => .alter ht hx hname (TablePair.reason_steps (h.unhinted hq) hold hnew hr s hs)
  | none =>
      cases x with
      | table t => exact .of_statements_nil (statements_alterSteps_of_none hq)
      | index i =>
          intro s hs
          rw [statements_alterSteps_index] at hs
          split at hs
          · rename_i old hold
            split at hs
            · rename_i hchanged
              obtain rfl := List.mem_singleton.mp hs
              obtain ⟨hmem, hkey⟩ := h.old?_eq_some.mp hold
              refine .createIndex hx fun j hj hname => ?_
              have hj : SchemaObject.index j = .index old := List.inj_on_of_nodup_map
                h.before.keys_nodup hj hmem ((congrArg ObjectKey.index hname).trans hkey.symm)
              cases hj
              simpa [indexChanged_eq h.options] using hchanged
            · cases hs
          · cases hs

-- Nothing is planned without a reason.
theorem reason_steps (h : p.Named) : ∀ s ∈ Step.statements p.steps, p.Reason s := by
  intro s hs
  rw [statements_steps_of_default h.options, List.mem_append, List.mem_append] at hs
  rcases hs with hs | hs | hs
  · exact h.reason_drops s hs
  · exact h.reason_creates s hs
  · exact Emits.flatMap (fun x hx => h.reason_alterSteps hx) s hs

end Named

end SchemaPair

end SchemaDiff.Migration
