import Mathlib.Data.Finset.Basic
import SchemaDiff.Proofs.Migration.TableRun
import SchemaDiff.Proofs.Outline

namespace SchemaDiff.Migration.TablePair

open Outline

variable {p : TablePair} {o target : Outline} {columns : Finset String}

-- A statement that neither names columns nor makes any.
def Inert (s : Statement) : Prop :=
  (∀ target, s.needs target = []) ∧ ∀ o, Outline.exec o s = o

theorem silent_of_inert {m : Script} (h : ∀ s ∈ m, Inert s) : (watch target).Silent m :=
  Watch.silent_of_forall fun s hs o =>
    ⟨admits_of_no_needs ((h s hs).1 target), (h s hs).2 o⟩

theorem inert_alterTable {table : ObjectName} {change : TableChange}
    (hneeds : ∀ target, (Statement.alterTable table change).needs target = [])
    (hrename : ∀ new, change ≠ .renameTable new)
    (hcolumns : ∀ columns, change.onColumns columns = columns) :
    Inert (.alterTable table change) := by
  refine ⟨hneeds, fun o => ?_⟩
  have hid : (fun columns => change.onColumns columns) = id := funext hcolumns
  have hexec : Outline.exec o (.alterTable table change) =
      Function.update o table.identity
        ((o table.identity).map fun columns => change.onColumns columns) := by
    cases change with
    | renameTable new => exact absurd rfl (hrename new)
    | _ => rfl
  rw [hexec, hid, Option.map_id, id, Function.update_eq_self]

theorem inert_dropConstraint (c : Constraint) :
    ∀ s ∈ Step.statements (p.dropConstraint c), Inert s := by
  intro s hs
  unfold dropConstraint at hs
  split at hs
  · obtain rfl : s = _ := by simpa using hs
    exact ⟨fun _ => rfl, fun _ => rfl⟩
  · obtain rfl : s = _ := by simpa [alter] using hs
    exact inert_alterTable (fun _ => rfl) (by simp) fun _ => rfl

theorem inert_dropConstraintSteps (h : p.Unhinted) :
    ∀ s ∈ Step.statements p.dropConstraintSteps, Inert s := by
  rw [statements_dropConstraintSteps h]
  intro s hs
  obtain ⟨c, -, hs⟩ := List.mem_flatMap.mp hs
  unfold constraintStatements at hs
  split at hs
  · cases hs
  · exact inert_dropConstraint c s hs

theorem inert_changeColumn (new : Column) (change : ColumnChange) :
    ∀ s ∈ Step.statements (p.changeColumn new change), Inert s := by
  intro s hs
  obtain rfl : s = _ := by simpa [changeColumn, alter] using hs
  exact inert_alterTable (fun _ => rfl) (by simp) fun _ => rfl

theorem inert_defaultSteps (old new : Column) :
    ∀ s ∈ Step.statements (p.defaultSteps old new), Inert s := by
  unfold defaultSteps
  split
  · simp
  · exact inert_changeColumn new _

theorem inert_alterColumnStep (old new : Column) :
    ∀ s ∈ Step.statements (p.alterColumnStep old new), Inert s := by
  unfold alterColumnStep
  split
  · split
    · intro s hs
      obtain rfl : s = _ := by simpa [alter] using hs
      exact inert_alterTable (fun _ => rfl) (by simp) fun _ => rfl
    · exact inert_defaultSteps old new
  · split
    · simp [Step.statements]
    · intro s hs
      rw [Step.statements_append, Step.statements_append, List.mem_append, List.mem_append] at hs
      rcases hs with (hs | hs) | hs
      · split at hs
        · cases hs
        · exact inert_changeColumn new _ s hs
      · exact inert_defaultSteps old new s hs
      · unfold nullSteps at hs
        split at hs
        · cases hs
        · exact inert_changeColumn new _ s hs

theorem inert_alterColumnSteps : ∀ s ∈ Step.statements p.alterColumnSteps, Inert s := by
  rw [alterColumnSteps, Step.statements_flatMap]
  intro s hs
  obtain ⟨new, -, hs⟩ := List.mem_flatMap.mp hs
  split at hs
  · exact inert_alterColumnStep _ _ s hs
  · cases hs

theorem statements_dropColumnSteps (h : p.Unhinted) :
    Step.statements p.dropColumnSteps =
      (p.old.columns.filter fun old => (p.new.column? old.name.name).isNone).map fun old =>
        .alterTable p.new.name (.dropColumn old.name) := by
  rw [dropColumnSteps, Step.statements_flatMap, h.oldColumns_eq, map_filter_eq_flatMap]
  refine List.flatMap_congr fun old _ => ?_
  split <;> rfl

theorem statements_addColumnSteps (h : p.Unhinted) :
    Step.statements p.addColumnSteps =
      (p.new.columns.filter fun new => (p.old.column? new.name.name).isNone).map fun new =>
        .alterTable p.new.name (.addColumn new) := by
  rw [addColumnSteps, Step.statements_flatMap, map_filter_eq_flatMap]
  refine List.flatMap_congr fun new _ => ?_
  rw [h.oldColumn?_eq]
  split <;> rfl

theorem leads_dropColumns (table : ObjectName) (dropped : List Column) :
    (watch target).Leads (Function.update o table.identity (some columns))
      (dropped.map fun c => .alterTable table (.dropColumn c.name))
      (Function.update o table.identity
        (some (columns \ (dropped.map (·.name.name)).toFinset))) := by
  induction dropped generalizing columns with
  | nil => simp
  | cons c dropped ih =>
      have hexec : (watch target).exec (Function.update o table.identity (some columns))
          (.alterTable table (.dropColumn c.name)) =
          Function.update o table.identity (some (columns.erase c.name.name)) := by
        simp [watch, Outline.exec, TableChange.onColumns]
      rw [List.map_cons, Watch.leads_cons, List.map_cons, List.toFinset_cons,
        Finset.sdiff_insert, ← Finset.erase_sdiff_comm]
      refine ⟨admits_of_no_needs rfl, ?_⟩
      rw [hexec]
      exact ih

theorem leads_addColumns (table : ObjectName) (added : List Column) :
    (watch target).Leads (Function.update o table.identity (some columns))
      (added.map fun c => .alterTable table (.addColumn c))
      (Function.update o table.identity
        (some (columns ∪ (added.map (·.name.name)).toFinset))) := by
  induction added generalizing columns with
  | nil => simp
  | cons c added ih =>
      have hexec : (watch target).exec (Function.update o table.identity (some columns))
          (.alterTable table (.addColumn c)) =
          Function.update o table.identity (some (insert c.name.name columns)) := by
        simp [watch, Outline.exec, TableChange.onColumns]
      rw [List.map_cons, Watch.leads_cons, List.map_cons, List.toFinset_cons,
        Finset.union_insert, ← Finset.insert_union]
      refine ⟨admits_of_no_needs rfl, ?_⟩
      rw [hexec]
      exact ih

-- The columns that leave and those that come make the old columns the new ones.
theorem columnNames_eq :
    (p.old.columnNames \ ((p.old.columns.filter fun old =>
        (p.new.column? old.name.name).isNone).map (·.name.name)).toFinset) ∪
      ((p.new.columns.filter fun new =>
        (p.old.column? new.name.name).isNone).map (·.name.name)).toFinset = p.new.columnNames := by
  have hnone : ∀ {t : CreateTable} {name : String},
      (t.column? name).isNone = true ↔ name ∉ t.columns.map (·.name.name) := by
    intro t name
    simp [CreateTable.column?]
  ext name
  simp only [CreateTable.columnNames, Finset.mem_union, Finset.mem_sdiff, List.mem_toFinset,
    List.mem_map, List.mem_filter, hnone]
  constructor
  · rintro (⟨⟨c, hc, rfl⟩, hkept⟩ | ⟨c, ⟨hc, -⟩, rfl⟩)
    · by_contra hn
      exact hkept ⟨c, ⟨hc, hn⟩, rfl⟩
    · exact ⟨c, hc, rfl⟩
  · rintro ⟨c, hc, rfl⟩
    by_cases hold : ∃ k ∈ p.old.columns, k.name.name = c.name.name
    · refine .inl ⟨hold, ?_⟩
      rintro ⟨k, ⟨-, hk⟩, hname⟩
      exact hk ⟨c, hc, hname.symm⟩
    · exact .inr ⟨c, ⟨hc, hold⟩, rfl⟩

-- A constraint names the same columns wherever it is written.
theorem exists_addedConstraint {s : Statement} (hs : s ∈ Step.statements p.addConstraintSteps) :
    ∃ c ∈ p.new.constraints, (∀ target, s.needs target = c.rule.needs target p.table) ∧
      ∀ o, Outline.exec o s = o := by
  rw [addConstraintSteps, Step.statements_flatMap] at hs
  obtain ⟨c, hc, hs⟩ := List.mem_flatMap.mp hs
  refine ⟨c, hc, ?_⟩
  split at hs
  · cases hrule : c.rule with
    | index isUnique columns =>
        obtain rfl : s = _ := by simpa [addConstraint, hrule] using hs
        refine ⟨fun target => ?_, fun _ => rfl⟩
        simp [Statement.needs, CreateIndex.needs, Rule.needs]
    | _ =>
        obtain rfl : s = _ := by simpa [addConstraint, hrule, alter] using hs
        refine ⟨fun target => by rw [← hrule]; rfl, fun o => ?_⟩
        simp [Outline.exec, TableChange.onColumns]
  · cases hs

-- The statements of a pair make the old columns of the table the new ones, and are in order if
-- the constraints of the table are then.
theorem leads_steps (h : p.Unhinted) (hr : Step.refusal? p.steps = none)
    (ho : o p.table = some p.old.columnNames)
    (hneeds : ∀ n ∈ p.new.needs target,
      Meets (Function.update o p.table (some p.new.columnNames)) n) :
    (watch target).Leads o (Step.statements p.steps)
      (Function.update o p.table (some p.new.columnNames)) := by
  have hold : o = Function.update o p.table (some p.old.columnNames) := by
    rw [← ho, Function.update_eq_self]
  have hdrops : (watch target).Leads o (Step.statements p.dropColumnSteps)
      (Function.update o p.table (some (p.old.columnNames \ ((p.old.columns.filter fun old =>
        (p.new.column? old.name.name).isNone).map (·.name.name)).toFinset))) := by
    rw [statements_dropColumnSteps h]
    nth_rewrite 1 [hold]
    exact leads_dropColumns p.new.name _
  have hcolumns : (watch target).Leads o (Step.statements p.dropColumnSteps ++
      Step.statements p.alterColumnSteps ++ Step.statements p.addColumnSteps)
      (Function.update o p.table (some p.new.columnNames)) := by
    rw [List.append_assoc, Watch.leads_append_of hdrops,
      Watch.leads_append_of (silent_of_inert inert_alterColumnSteps _),
      statements_addColumnSteps h, ← columnNames_eq]
    exact leads_addColumns p.new.name _
  have hadds : (watch target).Leads (Function.update o p.table (some p.new.columnNames))
      (Step.statements p.addConstraintSteps)
      (Function.update o p.table (some p.new.columnNames)) := by
    refine leads_of_meets fun s hs => ?_
    obtain ⟨c, hc, hsame, hexec⟩ := exists_addedConstraint hs
    refine ⟨hexec _, fun n hn => hneeds n (List.mem_flatMap.mpr ⟨c, hc, ?_⟩)⟩
    rwa [hsame] at hn
  rw [statements_steps h hr, List.append_assoc,
    Watch.leads_append_of (silent_of_inert (inert_dropConstraintSteps h) o),
    Watch.leads_append_of hcolumns]
  exact hadds

end SchemaDiff.Migration.TablePair
