import SchemaDiff.Migration

namespace SchemaDiff.Migration

theorem renameTable_nil (d : Dialect) (table : ObjectName) : renameTable d [] table = table := rfl

theorem renameColumn_nil (d : Dialect) (column : Ident) : renameColumn d [] column = column := rfl

theorem renameColumns_nil (d : Dialect) (columns : List ColumnIdent) :
    renameColumns d [] columns = columns := by
  simp [renameColumns, renameColumn_nil]

namespace Step

theorem mem_statements {steps : List Step} {s : Statement} :
    s ∈ statements steps ↔ emit s ∈ steps := by
  rw [statements, List.mem_filterMap]
  constructor
  · rintro ⟨step, hstep, hs⟩
    split at hs
    · cases hs
      exact hstep
    · cases hs
  · exact fun hs => ⟨_, hs, rfl⟩

theorem statements_flatMap {α : Type} (f : α → List Step) (xs : List α) :
    statements (xs.flatMap f) = xs.flatMap fun x => statements (f x) :=
  List.filterMap_flatMap

theorem statements_map_emit {α : Type} (f : α → Statement) (xs : List α) :
    statements (xs.map fun x => emit (f x)) = xs.map f := by
  induction xs with
  | nil => rfl
  | cons x xs ih => exact congrArg (f x :: ·) ih

theorem statements_map_refuse (refusals : List Refusal) :
    statements (refusals.map refuse) = [] := by
  induction refusals with
  | nil => rfl
  | cons r refusals ih => exact ih

@[simp] theorem statements_nil : statements [] = [] := rfl

@[simp] theorem statements_note (event : Event) (rest : List Step) :
    statements (note event :: rest) = statements rest := rfl

@[simp] theorem statements_emit (s : Statement) (rest : List Step) :
    statements (emit s :: rest) = s :: statements rest := rfl

@[simp] theorem statements_announce (s : Statement) : statements (announce s) = [s] := rfl

@[simp] theorem statements_alter (table : ObjectName) (change : TableChange) :
    statements (Step.alter table change) = [.alterTable table change] := rfl

-- All planned statements have the property.
def Emits (P : Statement → Prop) (steps : List Step) : Prop :=
  ∀ s ∈ statements steps, P s

namespace Emits

variable {P : Statement → Prop}

theorem append {first second : List Step} (hfirst : Emits P first) (hsecond : Emits P second) :
    Emits P (first ++ second) := by
  intro s hs
  rw [statements_append, List.mem_append] at hs
  exact hs.elim (hfirst s) (hsecond s)

theorem flatMap {α : Type} {xs : List α} {f : α → List Step} (h : ∀ x ∈ xs, Emits P (f x)) :
    Emits P (xs.flatMap f) := by
  intro s hs
  rw [statements_flatMap, List.mem_flatMap] at hs
  obtain ⟨x, hx, hs⟩ := hs
  exact h x hx s hs

theorem note {event : Event} {rest : List Step} (h : Emits P rest) :
    Emits P (.note event :: rest) := h

theorem emit {s : Statement} (h : P s) : Emits P [.emit s] := by
  intro s' hs
  obtain rfl : s' = s := by simpa using hs
  exact h

theorem map_emit {α : Type} {xs : List α} {f : α → Statement} (h : ∀ x ∈ xs, P (f x)) :
    Emits P (xs.map fun x => .emit (f x)) := by
  intro s hs
  rw [statements_map_emit, List.mem_map] at hs
  obtain ⟨x, hx, rfl⟩ := hs
  exact h x hx

theorem of_statements_nil {steps : List Step} (h : statements steps = []) : Emits P steps := by
  intro s hs
  simp [h] at hs

theorem announce {s : Statement} (h : P s) : Emits P (Step.announce s) :=
  note (emit h)

theorem alter {table : ObjectName} {change : TableChange} (h : P (.alterTable table change)) :
    Emits P (Step.alter table change) :=
  announce h

end Emits

theorem refusal?_eq_none_iff {steps : List Step} :
    refusal? steps = none ↔ ∀ step ∈ steps, ∀ r, step ≠ refuse r := by
  rw [refusal?, List.findSome?_eq_none_iff]
  constructor
  · rintro h step hm r rfl
    simpa using h _ hm
  · intro h step hm
    cases step with
    | refuse r => exact absurd rfl (h _ hm r)
    | _ => rfl

theorem refusal?_eq_none_of_mem {steps inner : List Step} (h : refusal? steps = none)
    (hsub : ∀ step ∈ inner, step ∈ steps) : refusal? inner = none :=
  refusal?_eq_none_iff.mpr fun step hm => refusal?_eq_none_iff.mp h step (hsub step hm)

end Step

namespace TablePair

variable {p : TablePair}

-- The pair of a run that was given no hints.
structure Unhinted (p : TablePair) : Prop where
  renamedFrom : p.renamedFrom = none
  columnRenames : p.columnRenames = []
  tableRenames : p.tableRenames = []

theorem Unhinted.renameRule_eq (h : p.Unhinted) (rule : Rule) : p.renameRule rule = rule := by
  cases rule <;>
    simp [renameRule, renameReference, h.columnRenames, h.tableRenames, renameColumns_nil,
      renameTable_nil]

theorem Unhinted.oldConstraints_eq (h : p.Unhinted) : p.oldConstraints = p.old.constraints := by
  simp [oldConstraints, h.renameRule_eq]

theorem Unhinted.oldColumns_eq (h : p.Unhinted) : p.oldColumns = p.old.columns := by
  simp [oldColumns, h.columnRenames, renameColumn_nil]

theorem Unhinted.oldColumn?_eq (h : p.Unhinted) (name : String) :
    p.oldColumn? name = p.old.column? name := by
  rw [oldColumn?, h.oldColumns_eq]
  rfl

theorem Unhinted.moved?_eq (h : p.Unhinted) (old : Constraint) : p.moved? old = none := by
  simp [moved?, movedName?, h.renamedFrom]

theorem Unhinted.renamedConstraints_eq (h : p.Unhinted) : p.renamedConstraints = [] := by
  simp [renamedConstraints, h.moved?_eq]

theorem Unhinted.renameConstraintSteps_eq (h : p.Unhinted) : p.renameConstraintSteps = [] := by
  simp [renameConstraintSteps, h.moved?_eq]

theorem Unhinted.counterpart?_eq (h : p.Unhinted) (old : Constraint) :
    p.counterpart? old = p.new.constraint? old.name.name := by
  simp [counterpart?, h.renamedConstraints_eq]

theorem Unhinted.existed_eq (h : p.Unhinted) (new : Constraint) :
    p.existed new = p.old.constraints.any (·.name.name == new.name.name) := by
  simp [existed, h.renamedConstraints_eq, h.oldConstraints_eq]

end TablePair

theorem statements_objectRefusals (s : Script) : Step.statements (objectRefusals s) = [] := by
  rw [Step.statements, List.filterMap_eq_nil_iff]
  intro step hs
  obtain ⟨statement, -, hstep⟩ := List.mem_filterMap.mp hs
  split at hstep
  · cases hstep
    rfl
  · cases hstep

theorem statements_dropAll (d : Dialect) (s : Script) :
    Step.statements (dropAll d s) = (objects s).reverse.map (SchemaObject.dropStatement d id) := by
  have hreverse : objects s.reverse = (objects s).reverse := List.filterMap_reverse
  rw [dropAll, Step.statements_append, Step.statements_append, statements_objectRefusals,
    Step.statements_map_emit, hreverse]
  simp

-- From nothing, the new schema is its own migration.
theorem statements_steps_none (d : Dialect) (options : Options) (s : Script) :
    Step.statements (steps d options none (some s)) = s := by
  rw [steps, Step.statements_map_emit, List.map_id']

theorem diff_eq_ok {d : Dialect} {options : Options} {before after : Option Script} {m : Script}
    (h : diff d options before after = .ok m) :
    Step.refusal? (steps d options before after) = none ∧
      Step.statements (steps d options before after) = m ∧ m ≠ [] := by
  unfold diff Step.result at h
  cases hr : Step.refusal? (steps d options before after) with
  | some r => simp [hr] at h
  | none =>
      cases hm : Step.statements (steps d options before after) with
      | nil => simp [hr, hm] at h
      | cons first rest =>
          have heq : first :: rest = m := by simpa [hr, hm] using h
          exact ⟨rfl, heq, heq ▸ List.cons_ne_nil first rest⟩

namespace SchemaPair

variable {p : SchemaPair}

theorem statements_refusals (p : SchemaPair) : Step.statements p.refusals = [] := by
  simp [refusals, Step.statements_append, Step.statements_map_refuse, statements_objectRefusals]

theorem tablePair_unhinted (h : p.options = .default) (old new : CreateTable) :
    (p.tablePair old new).Unhinted where
  renamedFrom := by simp [tablePair, h, Options.default]
  columnRenames := by simp [tablePair, h, Options.default, Options.columnRenamesOf]
  tableRenames := by simp [tablePair, h, Options.default]

theorem oldKey_eq (h : p.options = .default) (o : SchemaObject) : p.oldKey o = o.key := by
  unfold oldKey
  split <;> rename_i hk <;> simp [hk, h, Options.default, newTableName?]

theorem indexChanged_eq (h : p.options = .default) (old new : CreateIndex) :
    p.indexChanged old new = (old.identity != new.identity) := by
  simp [indexChanged, h, Options.default, Options.columnRenamesOf, renameTable_nil,
    renameColumns_nil]

end SchemaPair

end SchemaDiff.Migration
