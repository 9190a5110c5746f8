import SchemaDiff.Proofs.Migration.Orderly
import SchemaDiff.Proofs.Migration.Planned

namespace SchemaDiff.Migration

open SchemaObject

def tableNames (s : Script) : List String :=
  (objects s).filterMap tableName?

theorem mem_filterMap_tableName? {os : List SchemaObject} {name : String} :
    name ∈ os.filterMap tableName? ↔ ∃ t, .table t ∈ os ∧ t.name.identity = name := by
  rw [List.mem_filterMap]
  constructor
  · rintro ⟨x, hx, hname⟩
    cases x with
    | table t => exact ⟨t, hx, Option.some.inj hname⟩
    | index i => cases hname
  · rintro ⟨t, ht, rfl⟩
    exact ⟨_, ht, rfl⟩

theorem mem_tableNames {s : Script} {name : String} :
    name ∈ tableNames s ↔ ∃ t, .table t ∈ objects s ∧ t.name.identity = name :=
  mem_filterMap_tableName?

-- A schema in which names are told apart. An index may have its own statement or stand in a table.
structure Distinct (s : Script) : Prop where
  tables : (tableNames s).Nodup
  indexes : ((objects s).flatMap indexNames).Nodup
  constraints : ∀ o ∈ objects s, o.constraintNames.Nodup

instance (s : Script) : Decidable (Distinct s) :=
  decidable_of_iff ((tableNames s).Nodup ∧ ((objects s).flatMap indexNames).Nodup ∧
    ∀ o ∈ objects s, o.constraintNames.Nodup)
    ⟨fun ⟨h₁, h₂, h₃⟩ => ⟨h₁, h₂, h₃⟩, fun h => ⟨h.tables, h.indexes, h.constraints⟩⟩

theorem Distinct.keys_nodup {s : Script} (h : Distinct s) : ((objects s).map key).Nodup :=
  Orderly.keys_nodup_of h.tables h.indexes

theorem Distinct.apart {s : Script} (h : Distinct s) {x y : SchemaObject} (hx : x ∈ objects s)
    (hy : y ∈ objects s) (hne : x.key ≠ y.key) : x.Apart y :=
  Orderly.apart_of h.indexes hx hy hne

theorem Distinct.eq_of_mem_indexNames {s : Script} (h : Distinct s) {x y : SchemaObject}
    (hx : x ∈ objects s) (hy : y ∈ objects s) {name : String} (hnx : name ∈ x.indexNames)
    (hny : name ∈ y.indexNames) : x = y := by
  by_contra hne
  have hkey : x.key ≠ y.key := fun hkey =>
    hne (List.inj_on_of_nodup_map h.keys_nodup hx hy hkey)
  exact (h.apart hx hy hkey).2 name hnx hny

-- A schema that was not refused consists of objects.
theorem map_statement_of_refusal? {s : Script} (h : Step.refusal? (objectRefusals s) = none) :
    (objects s).map statement = s := by
  induction s with
  | nil => rfl
  | cons first s ih =>
      cases first with
      | createTable t => exact congrArg (.createTable t :: ·) (ih h)
      | createIndex i => exact congrArg (.createIndex i :: ·) (ih h)
      | _ => exact absurd h (Option.some_ne_none _)

-- What a run between two schemas gives: nothing was refused, and all that was planned is there.
theorem diff_some_eq_ok {d : Dialect} {options : Options} {before after m : Script}
    (h : diff d options (some before) (some after) = .ok m) :
    Step.refusal? (SchemaPair.steps ⟨d, options, before, after⟩) = none ∧
      Step.statements (SchemaPair.steps ⟨d, options, before, after⟩) = m ∧
      before.identity ≠ after.identity := by
  obtain ⟨hrefusal, hm, hne⟩ := diff_eq_ok h
  by_cases hsame : before.identity = after.identity
  · simp only [steps, if_pos hsame] at hm
    exact absurd hm.symm hne
  · simp only [steps, if_neg hsame] at hrefusal hm
    exact ⟨hrefusal, hm, hsame⟩

namespace SchemaPair

variable {p : SchemaPair}

-- The passes of a run, one after the other.
theorem statements_steps (p : SchemaPair) :
    Step.statements p.steps = Step.statements p.renames ++
      (Step.statements p.drops ++ (Step.statements p.creates ++ Step.statements p.alters)) := by
  simp [steps, Step.statements_append, statements_refusals]

theorem renames_eq_nil (h : p.options = .default) : p.renames = [] := by
  simp [renames, h, Options.default]

-- Without hints a run drops, creates and alters, in this order.
theorem statements_steps_of_default (h : p.options = .default) :
    Step.statements p.steps =
      Step.statements p.drops ++ (Step.statements p.creates ++ Step.statements p.alters) := by
  rw [statements_steps, renames_eq_nil h, Step.statements_nil, List.nil_append]

theorem statements_drops (h : p.options = .default) : Step.statements p.drops =
    ((objects p.before).reverse.filter p.isDropped).map (dropStatement p.dialect id) := by
  have hrename : renameTable p.dialect p.options.tableRenames = id := by
    rw [h]
    rfl
  rw [drops, Step.statements_map_emit, hrename]

theorem statements_creates (p : SchemaPair) : Step.statements p.creates =
    ((objects p.after).filter fun new => (p.old? new.key).isNone).map statement := by
  rw [creates, Step.statements_map_emit]

theorem refusal?_of_steps (h : Step.refusal? p.steps = none) :
    Step.refusal? (objectRefusals p.before) = none ∧
      Step.refusal? (objectRefusals p.after) = none ∧ Step.refusal? p.alters = none :=
  ⟨Step.refusal?_eq_none_of_mem h fun step hs => by simp [steps, refusals, hs],
    Step.refusal?_eq_none_of_mem h fun step hs => by simp [steps, refusals, hs],
    Step.refusal?_eq_none_of_mem h fun step hs => by simp [steps, hs]⟩

theorem new?_eq_none {k : ObjectKey} :
    p.new? k = none ↔ ∀ new ∈ objects p.after, new.key ≠ k := by
  simp [new?]

theorem isDropped_table (h : p.options = .default) (t : CreateTable) :
    p.isDropped (.table t) = true ↔ t.name.identity ∉ tableNames p.after := by
  have hnew : p.isDropped (.table t) = true ↔ p.new? (SchemaObject.table t).key = none := by
    cases hn : p.new? (SchemaObject.table t).key <;> simp [isDropped, oldKey_eq h, hn]
  rw [hnew, new?_eq_none, mem_tableNames, not_exists]
  constructor
  · exact fun hnone u hu => hnone _ hu.1 (congrArg ObjectKey.table hu.2)
  · rintro hnone (u | i) hu hkey
    · exact hnone u ⟨hu, ObjectKey.table.inj hkey⟩
    · cases hkey

theorem alterSteps_of_old?_eq_none {new : SchemaObject} (h : p.old? new.key = none) :
    p.alterSteps new = [] := by
  unfold alterSteps
  rw [h]

-- The two versions of a table that both schemas have.
def tablePair? (p : SchemaPair) (new : SchemaObject) : Option TablePair :=
  match p.old? new.key, new with
  | some (.table old), .table new => some (p.tablePair old new)
  | _, _ => none

theorem tablePair?_eq_some {new : SchemaObject} {q : TablePair} (h : p.tablePair? new = some q) :
    ∃ old t, p.old? new.key = some (.table old) ∧ new = .table t ∧ q = p.tablePair old t := by
  unfold tablePair? at h
  split at h
  · rename_i old t hold
    exact ⟨old, t, hold, rfl, (Option.some.inj h).symm⟩
  · cases h

theorem alterSteps_of_some {new : SchemaObject} {q : TablePair} (h : p.tablePair? new = some q) :
    p.alterSteps new = q.steps := by
  obtain ⟨old, t, hold, rfl, rfl⟩ := tablePair?_eq_some h
  unfold alterSteps
  rw [hold]

theorem statements_alterSteps_of_none {t : CreateTable} (h : p.tablePair? (.table t) = none) :
    Step.statements (p.alterSteps (.table t)) = [] := by
  unfold alterSteps
  unfold tablePair? at h
  split
  · rename_i heq
    cases heq
  · rename_i old t hold heq
    cases heq
    rw [hold] at h
    cases h
  · rfl

-- A changed index is created anew.
theorem statements_alterSteps_index (i : CreateIndex) :
    Step.statements (p.alterSteps (.index i)) =
      match p.old? (SchemaObject.index i).key with
      | some (.index old) => if p.indexChanged old i then [.createIndex i] else []
      | _ => [] := by
  unfold alterSteps
  cases hold : p.old? (SchemaObject.index i).key with
  | none => rfl
  | some x =>
      cases x with
      | table t => rfl
      | index old => by_cases hchanged : p.indexChanged old i = true <;> simp [hchanged]

theorem createsIndex_of_none {new : SchemaObject} (h : p.tablePair? new = none) :
    Step.Emits (fun s => ∃ i, s = .createIndex i) (p.alterSteps new) := by
  cases new with
  | table t => exact .of_statements_nil (statements_alterSteps_of_none h)
  | index i =>
      intro s hs
      rw [statements_alterSteps_index] at hs
      split at hs
      · split at hs
        · exact ⟨i, List.mem_singleton.mp hs⟩
        · cases hs
      · cases hs

-- Tables are dropped ahead of everything that is created or changed.
theorem not_dropTable_of_mem {s : Statement}
    (h : s ∈ Step.statements p.creates ++ Step.statements p.alters) (ifExists : Bool)
    (name : ObjectName) : s ≠ .dropTable ifExists name := by
  rintro rfl
  rcases List.mem_append.mp h with h | h
  · rw [statements_creates] at h
    obtain ⟨o, -, ho⟩ := List.mem_map.mp h
    cases o <;> cases ho
  · rw [alters, Step.statements_flatMap] at h
    obtain ⟨o, -, ho⟩ := List.mem_flatMap.mp h
    unfold alterSteps at ho
    split at ho
    · split at ho <;> simp at ho
    · cases TablePair.plans_steps _ ho
    · cases ho

-- The schemas of a run without hints, in which names are told apart.
structure Named (p : SchemaPair) : Prop where
  options : p.options = .default
  before : Distinct p.before
  after : Distinct p.after
  planned : Step.refusal? p.steps = none

namespace Named

theorem old?_eq_some (h : p.Named) {k : ObjectKey} {x : SchemaObject} :
    p.old? k = some x ↔ x ∈ objects p.before ∧ x.key = k :=
  SchemaPair.old?_eq_some h.options h.before.keys_nodup

theorem old?_eq_none (h : p.Named) {k : ObjectKey} :
    p.old? k = none ↔ ∀ x ∈ objects p.before, x.key ≠ k := by
  rw [SchemaPair.old?_eq_none h.options h.before.keys_nodup]
  simp

theorem isDropped_index (h : p.Named) {i : CreateIndex} : p.isDropped (.index i) = false ↔
    ∃ j, .index j ∈ objects p.after ∧ j.name.identity = i.name.identity ∧
      i.identity = j.identity := by
  have hkey := oldKey_eq h.options (.index i)
  constructor
  · intro hd
    cases hn : p.new? (SchemaObject.index i).key with
    | none => simp [isDropped, hkey, hn] at hd
    | some n =>
        obtain ⟨hmem, hnkey⟩ := (SchemaPair.new?_eq_some h.after.keys_nodup).mp hn
        cases n with
        | table t => cases hnkey
        | index j =>
            refine ⟨j, hmem, ObjectKey.index.inj hnkey, ?_⟩
            simpa [isDropped, hkey, hn, indexChanged_eq h.options] using hd
  · rintro ⟨j, hmem, hname, hsame⟩
    have hn := (SchemaPair.new?_eq_some h.after.keys_nodup).mpr
      ⟨hmem, show (SchemaObject.index j).key = (SchemaObject.index i).key from
        congrArg ObjectKey.index hname⟩
    simp [isDropped, hkey, hn, indexChanged_eq h.options, hsame]

theorem mem_dropped_tables (h : p.Named) {os : List SchemaObject} {table : String} :
    table ∈ (os.filter p.isDropped).filterMap tableName? ↔
      table ∈ os.filterMap tableName? ∧ table ∉ tableNames p.after := by
  simp only [mem_filterMap_tableName?, List.mem_filter, isDropped_table h.options]
  constructor
  · rintro ⟨t, ⟨ht, hgone⟩, rfl⟩
    exact ⟨⟨t, ht, rfl⟩, hgone⟩
  · rintro ⟨⟨t, ht, rfl⟩, hgone⟩
    exact ⟨t, ⟨ht, hgone⟩, rfl⟩

-- The versions of a table that both schemas have.
theorem tablePair?_eq_some (h : p.Named) {q : TablePair} {t u : CreateTable}
    (ht : .table t ∈ objects p.before) (hname : t.name.identity = u.name.identity)
    (hq : q = p.tablePair t u) : p.tablePair? (.table u) = some q := by
  have hold : p.old? (SchemaObject.table u).key = some (.table t) :=
    h.old?_eq_some.mpr ⟨ht, congrArg ObjectKey.table hname⟩
  unfold tablePair?
  rw [hold, hq]

theorem of_tablePair? (h : p.Named) {q : TablePair} {x : SchemaObject}
    (hq : p.tablePair? x = some q) : ∃ t u, x = .table u ∧ q = p.tablePair t u ∧
      .table t ∈ objects p.before ∧ t.name.identity = u.name.identity := by
  obtain ⟨t, u, hold, rfl, rfl⟩ := SchemaPair.tablePair?_eq_some hq
  obtain ⟨ht, hkey⟩ := h.old?_eq_some.mp hold
  exact ⟨t, u, rfl, rfl, ht, ObjectKey.table.inj hkey⟩

-- The steps for a table were planned, and the names of its constraints are told apart.
theorem steps_of_tablePair? (h : p.Named) {q : TablePair} {x : SchemaObject}
    (hx : x ∈ objects p.after) (hq : p.tablePair? x = some q) :
    Step.refusal? q.steps = none ∧ (q.old.constraints.map (·.name.name)).Nodup ∧
      (q.new.constraints.map (·.name.name)).Nodup := by
  refine ⟨?_, ?_⟩
  · refine Step.refusal?_eq_none_of_mem (refusal?_of_steps h.planned).2.2 fun step hs => ?_
    rw [← alterSteps_of_some hq] at hs
    exact List.mem_flatMap.mpr ⟨x, hx, hs⟩
  · obtain ⟨t, u, rfl, rfl, ht, -⟩ := h.of_tablePair? hq
    exact ⟨h.before.constraints _ ht, h.after.constraints _ hx⟩

theorem unhinted (h : p.Named) {q : TablePair} {x : SchemaObject} (hq : p.tablePair? x = some q) :
    q.Unhinted := by
  obtain ⟨t, u, -, rfl, -, -⟩ := h.of_tablePair? hq
  exact tablePair_unhinted h.options t u

theorem nodup_objects (h : p.Named) : (objects p.after).Nodup :=
  .of_map _ h.after.keys_nodup

end Named

end SchemaPair

end SchemaDiff.Migration
