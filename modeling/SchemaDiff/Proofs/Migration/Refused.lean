import SchemaDiff.Proofs.Migration.Passes
import SchemaDiff.Proofs.Migration.Untouched

namespace SchemaDiff.Migration

open SchemaObject

namespace Step

-- Something among the steps is refused.
def Refuses (steps : List Step) : Prop :=
  ∃ r, refuse r ∈ steps

section Refuses

variable {first second : List Step}

@[simp] theorem not_refuses_nil : ¬Refuses [] := by simp [Refuses]

@[simp] theorem refuses_note {event : Event} : Refuses (note event :: first) ↔ Refuses first := by
  simp [Refuses]

@[simp] theorem refuses_emit {s : Statement} : Refuses (emit s :: first) ↔ Refuses first := by
  simp [Refuses]

@[simp] theorem refuses_refuse {r : Refusal} : Refuses (refuse r :: first) :=
  ⟨r, .head _⟩

theorem refuses_append : Refuses (first ++ second) ↔ Refuses first ∨ Refuses second := by
  simp [Refuses, exists_or]

theorem refuses_flatMap {α : Type} {f : α → List Step} {xs : List α} :
    Refuses (xs.flatMap f) ↔ ∃ x ∈ xs, Refuses (f x) := by
  simp only [Refuses, List.mem_flatMap]
  constructor
  · rintro ⟨r, x, hx, hr⟩
    exact ⟨x, hx, r, hr⟩
  · rintro ⟨x, hx, r, hr⟩
    exact ⟨r, x, hx, hr⟩

theorem not_refuses_flatMap {α : Type} {f : α → List Step} {xs : List α}
    (h : ∀ x ∈ xs, ¬Refuses (f x)) : ¬Refuses (xs.flatMap f) := by
  rw [refuses_flatMap]
  rintro ⟨x, hx, hr⟩
  exact h x hx hr

theorem not_refuses_map_emit {α : Type} (f : α → Statement) (xs : List α) :
    ¬Refuses (xs.map fun x => emit (f x)) := by
  simp [Refuses]

@[simp] theorem not_refuses_announce {s : Statement} : ¬Refuses (announce s) := by
  simp [announce]

@[simp] theorem not_refuses_alter {table : ObjectName} {change : TableChange} :
    ¬Refuses (alter table change) :=
  not_refuses_announce

theorem refuses_iff {steps : List Step} : Refuses steps ↔ ∃ r, refusal? steps = some r := by
  rw [← Option.ne_none_iff_exists', ne_eq, refusal?_eq_none_iff]
  simp only [Refuses, not_forall, not_not]
  constructor
  · rintro ⟨r, hr⟩
    exact ⟨_, hr, r, rfl⟩
  · rintro ⟨step, hstep, r, rfl⟩
    exact ⟨r, hstep⟩

end Refuses

end Step

open Step

namespace TablePair

variable {p : TablePair}

theorem refuses_optionSteps : Refuses p.optionSteps ↔
    p.old.options.map TableOption.identity ≠ p.new.options.map TableOption.identity := by
  simp only [optionSteps]
  split <;> simp [*]

theorem not_refuses_renameConstraintSteps : ¬Refuses p.renameConstraintSteps := by
  refine not_refuses_flatMap fun old _ => ?_
  split
  · split <;> simp [alter]
  · exact not_refuses_nil

theorem not_refuses_dropConstraint {c : Constraint} : ¬Refuses (p.dropConstraint c) := by
  unfold dropConstraint
  split <;> simp [alter]

theorem not_refuses_dropConstraintSteps : ¬Refuses p.dropConstraintSteps := by
  refine not_refuses_flatMap fun old _ => ?_
  split
  · exact not_refuses_dropConstraint
  · split
    · exact fun h => not_refuses_dropConstraint (refuses_note.mp h)
    · exact not_refuses_nil

theorem not_refuses_addConstraint {c : Constraint} : ¬Refuses (p.addConstraint c) := by
  unfold addConstraint
  split <;> simp [alter]

theorem not_refuses_addConstraintSteps : ¬Refuses p.addConstraintSteps := by
  refine not_refuses_flatMap fun new _ => ?_
  split
  · exact not_refuses_addConstraint
  · exact not_refuses_nil

theorem not_refuses_dropColumnSteps : ¬Refuses p.dropColumnSteps :=
  not_refuses_flatMap fun old _ => by split <;> simp [alter]

theorem not_refuses_addColumnSteps : ¬Refuses p.addColumnSteps :=
  not_refuses_flatMap fun new _ => by split <;> simp [alter]

-- A column is refused where `AUTO_INCREMENT` would have to be set by an action of its own.
theorem refuses_alterColumnStep {old new : Column} : Refuses (p.alterColumnStep old new) ↔
    p.dialect.alterColumnStyle = .standard ∧ old.autoIncrement ≠ new.autoIncrement := by
  have hdefault : ¬Refuses (p.defaultSteps old new) := by
    unfold defaultSteps
    split <;> simp [changeColumn, alter]
  have hnull : ¬Refuses (p.nullSteps old new) := by
    unfold nullSteps
    split <;> simp [changeColumn, alter]
  have htype : ¬Refuses (if old.dataType.sql = new.dataType.sql then []
      else p.changeColumn new (.setDataType new.dataType)) := by
    split <;> simp [changeColumn, alter]
  unfold alterColumnStep
  split
  · rename_i hstyle
    split <;> simp [hstyle, hdefault, alter]
  · rename_i hstyle
    split
    · rename_i hauto
      simpa [hstyle] using hauto
    · rename_i hauto
      simp only [refuses_append, htype, hdefault, hnull, or_false, hstyle, true_and, false_iff]
      simpa using hauto

-- Without hints a table is refused for its options or for a column of both versions.
theorem refuses_steps (h : p.Unhinted) : Refuses p.steps ↔
    p.old.options.map TableOption.identity ≠ p.new.options.map TableOption.identity ∨
      p.dialect.alterColumnStyle = .standard ∧ ∃ new ∈ p.new.columns, ∃ old,
        p.old.column? new.name.name = some old ∧ old.autoIncrement ≠ new.autoIncrement := by
  have halter : Refuses p.alterColumnSteps ↔ p.dialect.alterColumnStyle = .standard ∧
      ∃ new ∈ p.new.columns, ∃ old, p.old.column? new.name.name = some old ∧
        old.autoIncrement ≠ new.autoIncrement := by
    rw [alterColumnSteps, refuses_flatMap]
    constructor
    · rintro ⟨new, hnew, hr⟩
      rw [h.oldColumn?_eq] at hr
      split at hr
      · rename_i old hold
        obtain ⟨hstyle, hauto⟩ := refuses_alterColumnStep.mp hr
        exact ⟨hstyle, new, hnew, old, hold, hauto⟩
      · simp at hr
    · rintro ⟨hstyle, new, hnew, old, hold, hauto⟩
      refine ⟨new, hnew, ?_⟩
      rw [h.oldColumn?_eq, hold]
      exact refuses_alterColumnStep.mpr ⟨hstyle, hauto⟩
  rw [steps, columnSteps, h.columnRenames, List.flatMap_nil]
  simp only [refuses_append, refuses_note, refuses_optionSteps, halter, not_refuses_nil,
    not_refuses_renameConstraintSteps, not_refuses_dropConstraintSteps, not_refuses_dropColumnSteps,
    not_refuses_addColumnSteps, not_refuses_addConstraintSteps, false_or, or_false]

end TablePair

theorem refuses_objectRefusals {s : Script} :
    Refuses (objectRefusals s) ↔ ∃ statement ∈ s, ¬statement.Creates := by
  simp only [Refuses, objectRefusals, List.mem_filterMap]
  constructor
  · rintro ⟨r, statement, hs, hr⟩
    refine ⟨statement, hs, fun hcreates => ?_⟩
    cases statement with
    | createTable t => cases hr
    | createIndex i => cases hr
    | _ => exact hcreates
  · rintro ⟨statement, hs, hcreates⟩
    refine ⟨.notAnObject statement, statement, hs, ?_⟩
    cases statement with
    | createTable t => exact absurd trivial hcreates
    | createIndex i => exact absurd trivial hcreates
    | _ => rfl

theorem SchemaObject.mem_objects {s : Script} {o : SchemaObject} :
    o ∈ objects s ↔ o.statement ∈ s := by
  simp [objects, ofStatement?_eq_some]

-- The first table of a name is the first object with its key.
theorem find?_objects_table (s : Script) (name : String) :
    (objects s).find? (·.key == .table name) = (table? s name).map .table := by
  induction s with
  | nil => rfl
  | cons statement s ih =>
      cases statement with
      | createTable t =>
          have hobjects : objects (.createTable t :: s) = .table t :: objects s := rfl
          rw [hobjects]
          by_cases hname : t.name.identity = name
          · simp [table?, key, hname]
          · simpa [table?, key, hname] using ih
      | createIndex i =>
          have hobjects : objects (.createIndex i :: s) = .index i :: objects s := rfl
          rw [hobjects]
          simpa [table?, key] using ih
      | _ => exact ih

namespace SchemaPair

variable {p : SchemaPair}

-- Without hints the old version of a table is the last one of its name.
theorem old?_table (h : p.options = .default) (name : String) :
    p.old? (.table name) = (table? p.before.reverse name).map .table := by
  have hreverse : objects p.before.reverse = (objects p.before).reverse := List.filterMap_reverse
  have hkeys : (p.oldKey · == ObjectKey.table name) = (SchemaObject.key · == .table name) :=
    funext fun x => by rw [oldKey_eq h]
  rw [old?, ← hreverse, hkeys, find?_objects_table]

theorem refuses_alterSteps {new : SchemaObject} : Refuses (p.alterSteps new) ↔
    ∃ t u, p.old? new.key = some (.table t) ∧ new = .table u ∧ Refuses (p.tablePair t u).steps := by
  constructor
  · intro hr
    unfold alterSteps at hr
    split at hr
    · split at hr <;> simp at hr
    · rename_i t u hold
      exact ⟨t, u, hold, rfl, hr⟩
    · simp at hr
  · rintro ⟨t, u, hold, rfl, hr⟩
    unfold alterSteps
    rw [hold]
    exact hr

theorem refuses_steps (h : p.options = .default) : Refuses p.steps ↔
    (∃ s ∈ p.before ++ p.after, ¬s.Creates) ∨
      ∃ t u, .createTable u ∈ p.after ∧ table? p.before.reverse u.name.identity = some t ∧
        Refuses (p.tablePair t u).steps := by
  have hrefusals : p.refusals = objectRefusals p.before ++ objectRefusals p.after := by
    simp [refusals, h, Options.default]
  have halters : Refuses p.alters ↔ ∃ t u, .createTable u ∈ p.after ∧
      table? p.before.reverse u.name.identity = some t ∧ Refuses (p.tablePair t u).steps := by
    rw [alters, refuses_flatMap]
    constructor
    · rintro ⟨new, hnew, halter⟩
      obtain ⟨t, u, hold, rfl, hr⟩ := refuses_alterSteps.mp halter
      have hname : (table? p.before.reverse u.name.identity).map SchemaObject.table =
          some (.table t) := old?_table h _ ▸ hold
      obtain ⟨t', ht, heq⟩ := Option.map_eq_some_iff.mp hname
      cases heq
      exact ⟨t, u, mem_objects.mp hnew, ht, hr⟩
    · rintro ⟨t, u, hu, ht, hr⟩
      have hold : p.old? (.table u.name.identity) = some (.table t) := by
        rw [old?_table h, ht, Option.map_some]
      exact ⟨.table u, mem_objects.mpr hu, refuses_alterSteps.mpr ⟨t, u, hold, rfl, hr⟩⟩
  rw [steps, renames_eq_nil h, hrefusals]
  simp only [refuses_append, refuses_objectRefusals, halters, drops, creates,
    not_refuses_map_emit, not_refuses_nil, or_false, List.mem_append, or_and_right, exists_or]

end SchemaPair

-- The run ends without a migration, and not because there is nothing to do.
def IsRefused (d : Dialect) (options : Options) (before after : Option Script) : Prop :=
  ∃ r, diff d options before after = .error (.notSupported r)

theorem isRefused_iff {d : Dialect} {options : Options} {before after : Option Script} :
    IsRefused d options before after ↔ Refuses (steps d options before after) := by
  rw [refuses_iff, IsRefused, diff, result]
  cases refusal? (steps d options before after) with
  | some r => simp
  | none => cases statements (steps d options before after) <;> simp

theorem isRefused_pair_iff {d : Dialect} {options : Options} {before after : Script} :
    IsRefused d options (some before) (some after) ↔ before.identity ≠ after.identity ∧
      Refuses (SchemaPair.steps ⟨d, options, before, after⟩) := by
  rw [isRefused_iff, steps]
  split <;> simp [*]

-- A run that is not refused has nothing to do or gives at least one statement.
theorem diff_of_not_refused {d : Dialect} {options : Options} {before after : Option Script}
    (h : ¬IsRefused d options before after) :
    diff d options before after = .error .noDifference ∨
      ∃ m, diff d options before after = .ok m ∧ m ≠ [] := by
  cases hdiff : diff d options before after with
  | ok m => exact .inr ⟨m, rfl, (diff_eq_ok hdiff).2.2⟩
  | error e =>
      cases e with
      | noDifference => exact .inl rfl
      | notSupported r => exact absurd ⟨r, hdiff⟩ h

-- A column that was read has `AUTO_INCREMENT` only where columns are written anew.
theorem autoIncrement_of_standard {d : Dialect} {c : Column} (h : c.Readable d)
    (hstyle : d.alterColumnStyle = .standard) : c.autoIncrement = false := by
  by_contra hauto
  have hkeyword := h.autoIncrement (by simpa using hauto)
  revert hkeyword
  cases d with
  | mysql => cases hstyle
  | _ => decide

-- What refuses a table that was read is a change of its options.
theorem TablePair.refuses_of_readable {p : TablePair} (h : p.Unhinted)
    (hold : p.old.Readable p.dialect) (hnew : p.new.Readable p.dialect) : Refuses p.steps ↔
      p.old.options.map TableOption.identity ≠ p.new.options.map TableOption.identity := by
  rw [refuses_steps h, or_iff_left]
  rintro ⟨hstyle, new, hmem, old, hfound, hauto⟩
  have hold' :=
    autoIncrement_of_standard (hold.columns old (List.mem_of_find?_eq_some hfound)) hstyle
  have hnew' := autoIncrement_of_standard (hnew.columns new hmem) hstyle
  exact hauto (hold'.trans hnew'.symm)

-- The options of a table are not those of the last old table of its name.
def ChangesOptions (before after : Script) : Prop :=
  ∃ t u, .createTable u ∈ after ∧ table? before.reverse u.name.identity = some t ∧
    t.options.map TableOption.identity ≠ u.options.map TableOption.identity

theorem changesOptions_iff {p : SchemaPair} (h : p.options = .default)
    (hbefore : ∀ s ∈ p.before, s.Readable p.dialect) (hafter : ∀ s ∈ p.after, s.Readable p.dialect) :
    (∃ t u, .createTable u ∈ p.after ∧ table? p.before.reverse u.name.identity = some t ∧
      Refuses (p.tablePair t u).steps) ↔ ChangesOptions p.before p.after := by
  refine exists_congr fun t => exists_congr fun u => and_congr_right fun hu =>
    and_congr_right fun ht => ?_
  have hmem : .createTable t ∈ p.before :=
    List.mem_reverse.mp (mem_objects.mp (SchemaPair.mem_of_table? ht))
  exact TablePair.refuses_of_readable (p.tablePair_unhinted h t u) (hbefore _ hmem) (hafter _ hu)

-- A run without hints is refused for a statement that is no object, or for options of a table that
-- are not those of its last old version.
theorem diff_refused_iff {d : Dialect} {before after : Script}
    (hbefore : ∃ text, Script.parse d text = .ok before)
    (hafter : ∃ text, Script.parse d text = .ok after) :
    (IsRefused d .default (some before) (some after) ↔ before.identity ≠ after.identity ∧
        ((∃ s ∈ before ++ after, ¬s.Creates) ∨ ChangesOptions before after)) ∧
      (¬IsRefused d .default (some before) (some after) →
        diff d .default (some before) (some after) = .error .noDifference ∨
          ∃ m, diff d .default (some before) (some after) = .ok m ∧ m ≠ []) ∧
      (IsRefused d .default (some before) none ↔ ∃ s ∈ before, ¬s.Creates) ∧
      ¬IsRefused d .default none (some after) := by
  obtain ⟨_, hbefore⟩ := hbefore
  obtain ⟨_, hafter⟩ := hafter
  refine ⟨?_, diff_of_not_refused, ?_, ?_⟩
  · have hoptions := changesOptions_iff (p := ⟨d, .default, before, after⟩) rfl
      (Script.readable_of_parse hbefore) (Script.readable_of_parse hafter)
    rw [isRefused_pair_iff, SchemaPair.refuses_steps rfl, hoptions]
  · rw [isRefused_iff, steps, dropAll]
    simp only [refuses_append, refuses_objectRefusals, List.mem_reverse, not_refuses_map_emit,
      refuses_note, not_refuses_nil, or_false]
  · rw [isRefused_iff]
    exact not_refuses_map_emit id after

def engineTable (autoIncrement : Bool) (engine : String) : Statement :=
  .createTable ⟨false, .ofIdent (.bare "t"),
    [⟨.bare "id", ⟨"INT", [], [], 0⟩, false, none, autoIncrement⟩], [],
    [⟨"ENGINE", .bare engine, true⟩]⟩

-- The old schema has the table twice, and only the options of the second one are compared. What
-- `AUTO_INCREMENT` is does not matter.
theorem diff_refused_engine :
    Script.parse .mysql "CREATE TABLE t (id INT AUTO_INCREMENT) ENGINE=a;
      CREATE TABLE t (id INT) ENGINE=b" = .ok [engineTable true "a", engineTable false "b"] ∧
    Script.parse .mysql "CREATE TABLE t (id INT AUTO_INCREMENT) ENGINE=a" =
      .ok [engineTable true "a"] ∧
    IsRefused .mysql .default (some [engineTable true "a", engineTable false "b"])
      (some [engineTable true "a"]) ∧
    ¬IsRefused .mysql .default (some [engineTable true "a", engineTable false "b"]) none := by
  have hbefore : Script.parse .mysql "CREATE TABLE t (id INT AUTO_INCREMENT) ENGINE=a;
      CREATE TABLE t (id INT) ENGINE=b" = .ok [engineTable true "a", engineTable false "b"] := by
    decide +kernel
  have hafter : Script.parse .mysql "CREATE TABLE t (id INT AUTO_INCREMENT) ENGINE=a" =
      .ok [engineTable true "a"] := by
    decide +kernel
  obtain ⟨hrefused, -, hdrop, -⟩ := diff_refused_iff ⟨_, hbefore⟩ ⟨_, hafter⟩
  refine ⟨hbefore, hafter, hrefused.mpr ⟨by decide +kernel, .inr ⟨_, _, .head _, rfl, ?_⟩⟩, ?_⟩
  · decide
  · rw [hdrop]
    decide

end SchemaDiff.Migration
