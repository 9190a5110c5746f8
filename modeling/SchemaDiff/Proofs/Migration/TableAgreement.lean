import SchemaDiff.Proofs.Identity.Objects
import SchemaDiff.Proofs.Migration.Matching

namespace SchemaDiff.Migration

namespace Step

-- No statement is planned, and nothing is refused.
def Quiet (steps : List Step) : Prop :=
  ∀ step ∈ steps, ∃ event, step = note event

variable {first second : List Step}

@[simp] theorem quiet_nil : Quiet [] := by simp [Quiet]

@[simp] theorem quiet_note {event : Event} : Quiet (note event :: first) ↔ Quiet first := by
  simp [Quiet]

@[simp] theorem not_quiet_emit {s : Statement} : ¬Quiet (emit s :: first) := by simp [Quiet]

@[simp] theorem not_quiet_refuse {r : Refusal} : ¬Quiet (refuse r :: first) := by simp [Quiet]

theorem quiet_append : Quiet (first ++ second) ↔ Quiet first ∧ Quiet second := by
  simp [Quiet, or_imp, forall_and]

theorem quiet_flatMap {α : Type} {f : α → List Step} {xs : List α} :
    Quiet (xs.flatMap f) ↔ ∀ x ∈ xs, Quiet (f x) := by
  simp only [Quiet, List.mem_flatMap]
  constructor
  · exact fun h x hx step hs => h step ⟨x, hx, hs⟩
  · rintro h step ⟨x, hx, hs⟩
    exact h x hx step hs

@[simp] theorem not_quiet_announce {s : Statement} : ¬Quiet (announce s) := by
  simp [announce]

@[simp] theorem not_quiet_alter {table : ObjectName} {change : TableChange} :
    ¬Quiet (alter table change) := by
  simp [alter]

theorem quiet_map_emit {α : Type} {f : α → Statement} {xs : List α} :
    Quiet (xs.map fun x => emit (f x)) ↔ xs = [] := by
  cases xs <;> simp

theorem result_eq_nil {steps : List Step} : result steps = .ok [] ↔ Quiet steps := by
  induction steps with
  | nil => simp [result, refusal?, statements]
  | cons step steps ih =>
      cases step with
      | note event =>
          rw [quiet_note, ← ih]
          rfl
      | emit s =>
          simp only [not_quiet_emit, iff_false, result]
          cases refusal? (emit s :: steps) <;> simp
      | refuse r => simp [result, refusal?]

theorem quiet_iff {steps : List Step} :
    Quiet steps ↔ refusal? steps = none ∧ statements steps = [] := by
  rw [← result_eq_nil, result]
  cases refusal? steps <;> simp

-- Quiet steps do not show in the result.
theorem Quiet.around {ahead behind : List Step} (hahead : Quiet ahead) (hbehind : Quiet behind)
    (steps : List Step) : refusal? (ahead ++ (steps ++ behind)) = refusal? steps ∧
      statements (ahead ++ (steps ++ behind)) = statements steps := by
  obtain ⟨hno, hnil⟩ := quiet_iff.mp hahead
  obtain ⟨hno', hnil'⟩ := quiet_iff.mp hbehind
  rw [refusal?_append, refusal?_append, statements_append, statements_append, hno, hno', hnil, hnil',
    Option.none_or, Option.or_none, List.nil_append, List.append_nil]
  exact ⟨rfl, rfl⟩

end Step

open Step

-- The tables are the same but for quotes, and for the order of their columns and constraints.
structure Agrees (t u : CreateTable) : Prop where
  column : ∀ name, (t.column? name).map Column.unquoted = (u.column? name).map Column.unquoted
  constraint : ∀ name,
    (t.constraint? name).map Constraint.unquoted = (u.constraint? name).map Constraint.unquoted
  options : t.options.map TableOption.unquoted = u.options.map TableOption.unquoted

theorem Agrees.of_unquoted {t u : CreateTable} (h : t.unquoted = u.unquoted) : Agrees t u where
  column name := by rw [← t.column?_unquoted, h, u.column?_unquoted]
  constraint name := by rw [← t.constraint?_unquoted, h, u.constraint?_unquoted]
  options := congrArg CreateTable.options h

namespace TablePair

variable {p : TablePair}

theorem quiet_optionSteps : Quiet p.optionSteps ↔
    p.old.options.map TableOption.identity = p.new.options.map TableOption.identity := by
  simp only [optionSteps]
  split <;> simp [*]

theorem not_quiet_dropConstraint {c : Constraint} : ¬Quiet (p.dropConstraint c) := by
  unfold dropConstraint
  split <;> simp [alter]

theorem not_quiet_addConstraint {c : Constraint} : ¬Quiet (p.addConstraint c) := by
  unfold addConstraint
  split <;> simp [alter]

theorem quiet_alterColumnStep {old new : Column} : Quiet (p.alterColumnStep old new) ↔
    old.dataType.sql = new.dataType.sql ∧ old.notNull = new.notNull ∧
      old.default.map Expr.identity = new.default.map Expr.identity ∧
      old.autoIncrement = new.autoIncrement := by
  have hdefault : Quiet (p.defaultSteps old new) ↔
      old.default.map Expr.identity = new.default.map Expr.identity := by
    unfold defaultSteps
    split <;> simp [changeColumn, alter, *]
  unfold alterColumnStep
  split
  · by_cases hm : needsModify old new = true
    · rw [if_pos hm]
      simp only [needsModify, Bool.or_eq_true, bne_iff_ne] at hm
      simp only [alter, not_quiet_alter, false_iff]
      tauto
    · rw [if_neg hm, hdefault]
      simp only [needsModify, Bool.or_eq_true, bne_iff_ne, ne_eq, not_or, not_not] at hm
      tauto
  · by_cases hauto : old.autoIncrement = new.autoIncrement
    · rw [if_neg (by simp [hauto]), quiet_append, quiet_append, hdefault]
      have htype : Quiet (if old.dataType.sql = new.dataType.sql then []
          else p.changeColumn new (.setDataType new.dataType)) ↔
          old.dataType.sql = new.dataType.sql := by
        split <;> simp [changeColumn, alter, *]
      have hnull : Quiet (p.nullSteps old new) ↔ old.notNull = new.notNull := by
        unfold nullSteps
        split <;> simp [changeColumn, alter, *]
      rw [htype, hnull]
      tauto
    · rw [if_pos (by simp [hauto])]
      simp [hauto]

variable (h : p.Unhinted)

include h

theorem quiet_dropConstraintSteps : Quiet p.dropConstraintSteps ↔
    ∀ old ∈ p.old.constraints, p.keeps old = true := by
  rw [dropConstraintSteps, quiet_flatMap, h.oldConstraints_eq]
  refine forall₂_congr fun old _ => ?_
  simp only [changed?, h.counterpart?_eq, keeps]
  rcases Option.eq_none_or_eq_some (p.new.constraint? old.name.name) with hn | ⟨new, hn⟩
  · simp [hn, not_quiet_dropConstraint]
  · by_cases hd : new.definition = old.definition <;>
      simp [hn, Option.filter, hd, not_quiet_dropConstraint]

theorem quiet_addConstraintSteps (hold : (p.old.constraints.map (·.name.name)).Nodup)
    (hnew : (p.new.constraints.map (·.name.name)).Nodup) : Quiet p.addConstraintSteps ↔
    ∀ new ∈ p.new.constraints, p.kept new = true := by
  rw [addConstraintSteps, quiet_flatMap]
  refine forall₂_congr fun new hm => ?_
  rw [adds_eq h hold hnew hm]
  by_cases hk : p.kept new = true <;> simp [hk, not_quiet_addConstraint]

theorem quiet_dropColumnSteps : Quiet p.dropColumnSteps ↔
    ∀ old ∈ p.old.columns, (p.new.column? old.name.name).isSome := by
  rw [dropColumnSteps, quiet_flatMap, h.oldColumns_eq]
  refine forall₂_congr fun old _ => ?_
  cases p.new.column? old.name.name <;> simp [alter]

theorem quiet_alterColumnSteps : Quiet p.alterColumnSteps ↔
    ∀ new ∈ p.new.columns, ∀ old, p.old.column? new.name.name = some old →
      Quiet (p.alterColumnStep old new) := by
  rw [alterColumnSteps, quiet_flatMap]
  refine forall₂_congr fun new _ => ?_
  rw [h.oldColumn?_eq]
  cases p.old.column? new.name.name <;> simp

theorem quiet_addColumnSteps : Quiet p.addColumnSteps ↔
    ∀ new ∈ p.new.columns, (p.old.column? new.name.name).isSome := by
  rw [addColumnSteps, quiet_flatMap]
  refine forall₂_congr fun new _ => ?_
  rw [h.oldColumn?_eq]
  cases p.old.column? new.name.name <;> simp [alter]

theorem quiet_steps_iff : Quiet p.steps ↔ Quiet p.optionSteps ∧
    (Quiet p.dropConstraintSteps ∧ Quiet p.addConstraintSteps) ∧ Quiet p.dropColumnSteps ∧
      Quiet p.alterColumnSteps ∧ Quiet p.addColumnSteps := by
  simp only [steps, columnSteps, quiet_append, quiet_note, quiet_nil, h.renameConstraintSteps_eq,
    h.columnRenames, List.flatMap_nil, and_true, true_and]
  tauto

section

variable (holdConstraints : (p.old.constraints.map (·.name.name)).Nodup)
  (hnewConstraints : (p.new.constraints.map (·.name.name)).Nodup)

include holdConstraints hnewConstraints

-- A constraint is left alone when there is one of its name with the same definition.
theorem quiet_constraints : Quiet p.dropConstraintSteps ∧ Quiet p.addConstraintSteps ↔
    Matched (·.name.name) (fun x y => y.definition = x.definition) p.old.constraints
      p.new.constraints := by
  rw [quiet_dropConstraintSteps h, quiet_addConstraintSteps h holdConstraints hnewConstraints]
  simp only [keeps_iff hnewConstraints, kept_iff]
  exact ⟨fun ⟨hleft, hright⟩ => ⟨hleft, hright⟩, fun hm => ⟨hm.left, hm.right⟩⟩

variable (holdColumns : (p.old.columns.map (·.name.name)).Nodup)
  (hnewColumns : (p.new.columns.map (·.name.name)).Nodup)

include holdColumns hnewColumns

omit holdConstraints hnewConstraints in
theorem quiet_columns :
    Quiet p.dropColumnSteps ∧ Quiet p.alterColumnSteps ∧ Quiet p.addColumnSteps ↔
      Matched (·.name.name) (fun x y => Quiet (p.alterColumnStep x y)) p.old.columns
        p.new.columns := by
  have hfindOld : ∀ {name : String} {c : Column}, p.old.column? name = some c ↔
      c ∈ p.old.columns ∧ c.name.name = name := find?_name_eq_some holdColumns
  have hfindNew : ∀ {name : String} {c : Column}, p.new.column? name = some c ↔
      c ∈ p.new.columns ∧ c.name.name = name := find?_name_eq_some hnewColumns
  rw [quiet_dropColumnSteps h, quiet_alterColumnSteps h, quiet_addColumnSteps h]
  simp only [Option.isSome_iff_exists, hfindOld, hfindNew]
  constructor
  · rintro ⟨hdropped, haltered, hadded⟩
    constructor
    · intro x hx
      obtain ⟨y, hy, hname⟩ := hdropped x hx
      exact ⟨y, hy, hname, haltered y hy x ⟨hx, hname.symm⟩⟩
    · intro y hy
      obtain ⟨x, hx, hname⟩ := hadded y hy
      exact ⟨x, hx, hname, haltered y hy x ⟨hx, hname⟩⟩
  · rintro ⟨hleft, hright⟩
    refine ⟨fun x hx => ?_, fun y hy x hx => ?_, fun y hy => ?_⟩
    · obtain ⟨y, hy, hname, -⟩ := hleft x hx
      exact ⟨y, hy, hname⟩
    · obtain ⟨x', hx', hname, hquiet⟩ := hright y hy
      obtain rfl : x = x' := List.inj_on_of_nodup_map holdColumns hx.1 hx' (hx.2.trans hname.symm)
      exact hquiet
    · obtain ⟨x, hx, hname, -⟩ := hright y hy
      exact ⟨x, hx, hname⟩

-- Versions that agree need no statement.
theorem quiet_of_agrees (hagrees : Agrees p.old p.new) : Quiet p.steps := by
  rw [quiet_steps_iff h, quiet_constraints h holdConstraints hnewConstraints,
    quiet_columns h holdColumns hnewColumns]
  refine ⟨quiet_optionSteps.mpr ?_, ?_, ?_⟩
  · rw [CreateTable.map_identity, hagrees.options, ← CreateTable.map_identity]
  · refine ((find?_map_eq_iff holdConstraints hnewConstraints).mp hagrees.constraint).imp ?_
    exact fun x hx y hy hname hsame => (Constraint.definition_of_unquoted hsame).symm
  · refine ((find?_map_eq_iff holdColumns hnewColumns).mp hagrees.column).imp ?_
    exact fun x hx y hy hname hsame => quiet_alterColumnStep.mpr (Column.demands_of_unquoted hsame)

variable {d : Dialect} (hold : p.old.Readable d ∧ p.old.Clear d)
  (hnew : p.new.Readable d ∧ p.new.Clear d)

include hold hnew

-- Nothing is planned for a table if and only if its versions agree.
theorem quiet_iff_agrees : Quiet p.steps ↔ Agrees p.old p.new := by
  refine ⟨fun hquiet => ?_,
    quiet_of_agrees h holdConstraints hnewConstraints holdColumns hnewColumns⟩
  rw [quiet_steps_iff h, quiet_constraints h holdConstraints hnewConstraints,
    quiet_columns h holdColumns hnewColumns] at hquiet
  obtain ⟨hoptions, hconstraints, hcolumns⟩ := hquiet
  refine ⟨(find?_map_eq_iff holdColumns hnewColumns).mpr (hcolumns.imp ?_),
    (find?_map_eq_iff holdConstraints hnewConstraints).mpr (hconstraints.imp ?_),
    (CreateTable.options_eq_iff (fun o ho => ⟨hold.1.options o ho, hold.2.options o ho⟩)
      fun o ho => ⟨hnew.1.options o ho, hnew.2.options o ho⟩).mpr (quiet_optionSteps.mp hoptions)⟩
  · intro x hx y hy hname hquiet
    exact (Column.unquoted_eq_iff ⟨hold.1.columns x hx, hold.2.columns x hx⟩
      ⟨hnew.1.columns y hy, hnew.2.columns y hy⟩ hname).mpr (quiet_alterColumnStep.mp hquiet)
  · intro x hx y hy hname hdefinition
    exact (Constraint.unquoted_eq_iff ⟨hold.1.constraints x hx, hold.2.constraints x hx⟩
      ⟨hnew.1.constraints y hy, hnew.2.constraints y hy⟩ hname).mpr hdefinition.symm

end

end TablePair

end SchemaDiff.Migration
