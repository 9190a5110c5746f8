import SchemaDiff.Proofs.Migration.Sheltered
import SchemaDiff.Proofs.Migration.TableRenaming

namespace SchemaDiff.Migration

open SchemaObject Directory

section Passes

variable {os : List SchemaObject} {o : Directory} {name : String}

-- Creating objects changes nothing of a table that is there.
theorem exec_statement_of_some {x : SchemaObject} {m : Members} (h : o name = some m) :
    watch.exec o x.statement name = some m := by
  cases x with
  | index i => exact h
  | table t => simp [statement, watch, exec, h]

theorem execAll_statements_of_some {m : Members} (h : o name = some m) :
    watch.execAll o (os.map statement) name = some m := by
  refine Watch.execAll_of (P := fun o : Directory => o name = some m) (fun s hs o ho => ?_) h
  obtain ⟨x, -, rfl⟩ := List.mem_map.mp hs
  exact exec_statement_of_some ho

theorem execAll_statements_of_not_mem (h : name ∉ os.filterMap tableName?) :
    watch.execAll o (os.map statement) name = o name := by
  refine Watch.execAll_of (P := fun o' : Directory => o' name = o name) (fun s hs o' ho => ?_) rfl
  obtain ⟨x, hx, rfl⟩ := List.mem_map.mp hs
  rw [← ho]
  cases x with
  | index i => rfl
  | table t =>
      have hne : t.name.identity ≠ name :=
        fun he => h (List.mem_filterMap.mpr ⟨_, hx, congrArg some he⟩)
      simp [statement, watch, exec, hne]

-- The first table of a name is the one that is created.
theorem execAll_statements_of_mem {t : CreateTable} (hnames : (os.filterMap tableName?).Nodup)
    (ht : .table t ∈ os) (ho : o t.name.identity = none) :
    watch.execAll o (os.map statement) t.name.identity = some t.members := by
  obtain ⟨pre, post, rfl⟩ := List.append_of_mem ht
  have hpre : t.name.identity ∉ pre.filterMap tableName? := by
    rw [List.filterMap_append, List.filterMap_cons_some (f := tableName?) rfl,
      List.nodup_append] at hnames
    exact fun hm => hnames.2.2 _ hm _ (by simp) rfl
  rw [List.map_append, List.map_cons, Watch.execAll_append, Watch.execAll_cons]
  refine execAll_statements_of_some ?_
  have hnone := (execAll_statements_of_not_mem hpre).trans ho
  have hexec : ∀ o : Directory, watch.exec o (SchemaObject.table t).statement t.name.identity =
      (o t.name.identity).or (some t.members) := fun o => by simp [statement, watch, exec]
  rw [hexec, hnone, Option.none_or]

-- Dropping objects changes nothing of the other tables.
theorem execAll_drops_of_not_mem (d : Dialect) (onTable : ObjectName → ObjectName)
    (h : name ∉ os.filterMap tableName?)
    (hindexes : ∀ i, .index i ∈ os → ∀ m ∈ o name, i.name.identity ∉ m.indexes) :
    watch.execAll o (os.map (dropStatement d onTable)) name = o name := by
  refine Watch.execAll_of (P := fun o' : Directory => o' name = o name) (fun s hs o' ho => ?_) rfl
  obtain ⟨x, hx, rfl⟩ := List.mem_map.mp hs
  rw [← ho] at hindexes ⊢
  cases x with
  | index i => exact exec_dropIndex_of_not_mem _ _ (hindexes i hx)
  | table t =>
      have hne : name ≠ t.name.identity :=
        fun he => h (List.mem_filterMap.mpr ⟨_, hx, congrArg some he.symm⟩)
      exact Function.update_of_ne hne _ _

end Passes

theorem mem_indexes_iff {t : CreateTable} {name : String} :
    name ∈ t.members.indexes ↔ name ∈ (SchemaObject.table t).indexNames := by
  simp only [CreateTable.members, List.mem_toFinset, List.mem_map, List.mem_filter]
  constructor
  · rintro ⟨c, ⟨hc, hindex⟩, rfl⟩
    exact mem_indexNames_of_isIndex hc hindex
  · intro h
    obtain ⟨e, he, rfl⟩ := List.mem_map.mp h
    obtain ⟨c, hc, hentry⟩ := List.mem_filterMap.mp he
    exact ⟨c, ⟨hc, Constraint.isIndex_of_indexEntryOf? hentry⟩,
      (Constraint.indexEntryOf?_name hentry).symm⟩

namespace Distinct

variable {s : Script} (h : Distinct s)
include h

-- An index of its own is not an index of a table as well.
theorem index_not_mem {i : CreateIndex} {t : CreateTable} (hi : .index i ∈ objects s)
    (ht : .table t ∈ objects s) : i.name.identity ∉ t.members.indexes := by
  rw [mem_indexes_iff]
  exact (h.apart hi ht (fun hkey => by cases hkey)).2 _ (by simp [indexNames, indexEntries])

theorem disjoint_indexes {t u : CreateTable} (ht : .table t ∈ objects s) (hu : .table u ∈ objects s)
    (hne : t.name.identity ≠ u.name.identity) : Disjoint t.members.indexes u.members.indexes := by
  refine Finset.disjoint_left.mpr fun name hname => ?_
  rw [mem_indexes_iff] at hname ⊢
  exact (h.apart ht hu fun hkey => hne (ObjectKey.table.inj hkey)).2 _ hname

end Distinct

-- A schema gives each of its tables the names of that table.
theorem of_table {s : Script} (hobjects : (objects s).map statement = s)
    (hnames : (tableNames s).Nodup) {t : CreateTable} (ht : .table t ∈ objects s) :
    Directory.of s t.name.identity = some t.members := by
  rw [Directory.of, ← hobjects]
  exact execAll_statements_of_mem hnames ht rfl

theorem of_eq_none {s : Script} (hobjects : (objects s).map statement = s) {name : String}
    (h : name ∉ tableNames s) : Directory.of s name = none := by
  rw [Directory.of, ← hobjects]
  exact execAll_statements_of_not_mem h

theorem table?_eq_some {s : Script} {name : String} {t : CreateTable}
    (h : table? s name = some t) : .table t ∈ objects s ∧ t.name.identity = name := by
  refine ⟨SchemaPair.mem_of_table? h, ?_⟩
  obtain ⟨statement, -, hsome⟩ := List.exists_of_findSome?_eq_some h
  split at hsome
  · split at hsome
    · rename_i hname
      cases hsome
      exact hname
    · cases hsome
  · cases hsome

theorem table?_eq_none {s : Script} {name : String} (h : table? s name = none) :
    name ∉ tableNames s := by
  intro hm
  obtain ⟨t, ht, hname⟩ := mem_tableNames.mp hm
  obtain ⟨statement, hstatement, hof⟩ := List.mem_filterMap.mp ht
  have hnone := List.findSome?_eq_none_iff.mp h statement hstatement
  cases statement with
  | createTable t' =>
      cases hof
      simp [hname] at hnone
  | _ => cases hof

namespace SchemaPair

variable {p : SchemaPair} {o : Directory}

-- Every rename starts from a name of the old schema and ends at one that was free in it.
structure Apt (p : SchemaPair) : Prop where
  oldTables : (p.options.tableRenames.map (·.old)).Nodup
  newTables : (p.options.tableRenames.map (·.new)).Nodup
  tables : ∀ new ∈ objects p.after, ∀ q ∈ p.tablePair? new, q.Apt

instance : DecidablePred Apt := fun p =>
  decidable_of_iff ((p.options.tableRenames.map (·.old)).Nodup ∧
    (p.options.tableRenames.map (·.new)).Nodup ∧
      ∀ new ∈ objects p.after, ∀ q ∈ p.tablePair? new, q.Apt)
    ⟨fun ⟨h₁, h₂, h₃⟩ => ⟨h₁, h₂, h₃⟩, fun h => ⟨h.oldTables, h.newTables, h.tables⟩⟩

-- What a table hint has to meet.
theorem tableHintRefusal?_eq_none {r : TableRename} (h : p.tableHintRefusal? r = none) :
    ∃ old new, table? p.before r.old = some old ∧ table? p.after r.new = some new ∧
      r.new ∉ tableNames p.before := by
  unfold tableHintRefusal? at h
  split at h
  · cases h
  · split at h
    · cases h
    · split at h
      · cases h
      · rename_i hold hnew hfree
        obtain ⟨old, hold⟩ := Option.ne_none_iff_exists'.mp (by simpa using hold)
        obtain ⟨new, hnew⟩ := Option.ne_none_iff_exists'.mp (by simpa using hnew)
        exact ⟨old, new, hold, hnew, table?_eq_none (by simpa using hfree)⟩

-- The names in the statements that rename tables.
def renamedTables (p : SchemaPair) : List (ObjectName × Ident) :=
  p.options.tableRenames.filterMap fun r => do
    let old ← table? p.before r.old
    let new ← table? p.after r.new
    return (old.name, new.name.name)

theorem statements_renames : Step.statements p.renames =
    p.renamedTables.map fun r => .alterTable r.1 (.renameTable r.2) := by
  rw [renames, renamedTables, Step.statements_flatMap, List.filterMap_eq_flatMap_toList,
    List.map_flatMap]
  refine List.flatMap_congr fun r _ => ?_
  cases table? p.before r.old <;> cases table? p.after r.new <;> simp

theorem names_renamedTables (h : ∀ r ∈ p.options.tableRenames, p.tableHintRefusal? r = none) :
    p.renamedTables.map (fun r => (r.1.identity, r.2.name)) =
      p.options.tableRenames.map fun r => (r.old, r.new) := by
  rw [renamedTables, List.map_filterMap, ← List.filterMap_eq_map]
  refine List.filterMap_congr fun r hr => ?_
  obtain ⟨old, new, hold, hnew, -⟩ := tableHintRefusal?_eq_none (h r hr)
  have hpair : (old.name.identity, new.name.identity) = (r.old, r.new) := by
    rw [(table?_eq_some hold).2, (table?_eq_some hnew).2]
  simp only [hold, hnew, Option.bind_eq_bind, Option.bind_some, Option.pure_def, Option.map_some,
    Function.comp_apply, ← hpair]
  rfl

-- A table of the old schema is looked for under the name that it becomes.
theorem oldKey_table (t : CreateTable) : p.oldKey (.table t) =
    .table (newName (p.options.tableRenames.map fun r => (r.old, r.new)) t.name.identity) := by
  simp [oldKey, key, newName, newTableName?, List.find?_map, Function.comp_def]

-- A statement for one table leaves the others alone.
theorem exec_of_plans {q : TablePair} {s : Statement} (h : q.Plans s) {name : String}
    (hne : name ≠ q.table) (hindexes : ∀ m ∈ o name, Disjoint q.old.members.indexes m.indexes) :
    watch.exec o s name = o name := by
  have halter : ∀ change, (∀ new, change ≠ .renameTable new) →
      watch.exec o (.alterTable q.new.name change) name = o name := by
    intro change hrename
    cases change with
    | renameTable new => exact absurd rfl (hrename new)
    | _ => exact Function.update_of_ne hne _ _
  cases h with
  | dropIndex hc hindex =>
      refine exec_dropIndex_of_not_mem _ _ fun m hm => ?_
      refine Finset.disjoint_left.mp (hindexes m hm) ?_
      exact TablePair.mem_indexes_of_oldConstraints hc hindex
  | createIndex hc hrule => rfl
  | _ => exact halter _ (by simp)

theorem not_mem_of_isDropped {t : CreateTable} (h : p.isDropped (.table t) = true) :
    newName (p.options.tableRenames.map fun r => (r.old, r.new)) t.name.identity ∉
      tableNames p.after := by
  unfold isDropped at h
  split at h
  · rename_i hgone
    rw [oldKey_table, new?_eq_none] at hgone
    intro hm
    obtain ⟨x, hx, hname⟩ := List.mem_filterMap.mp hm
    cases x with
    | index i => cases hname
    | table x => exact hgone _ hx (congrArg ObjectKey.table (Option.some.inj hname))
  · rename_i heq _
    cases heq
  · cases h

theorem tableHintRefusal?_of_steps (h : Step.refusal? p.steps = none) :
    ∀ r ∈ p.options.tableRenames, p.tableHintRefusal? r = none := by
  intro r hr
  by_contra hne
  obtain ⟨refusal, hsome⟩ := Option.ne_none_iff_exists'.mp hne
  have hmem : Step.refuse refusal ∈
      (p.options.tableRenames.filterMap p.tableHintRefusal?).map Step.refuse :=
    List.mem_map_of_mem (List.mem_filterMap.mpr ⟨r, hr, hsome⟩)
  refine Step.refusal?_eq_none_iff.mp h (.refuse refusal) ?_ refusal rfl
  simp only [steps, refusals, List.mem_append, hmem, true_or]

section

variable (hrefusal : Step.refusal? p.steps = none) (hbefore : Distinct p.before)
include hrefusal

-- A name that a table gets is not one that a table loses.
theorem hints_apart : ∀ r ∈ p.options.tableRenames, ∀ r' ∈ p.options.tableRenames,
    r.old ≠ r'.new := by
  intro r hr r' hr' heq
  obtain ⟨old, -, hold, -, -⟩ := tableHintRefusal?_eq_none (tableHintRefusal?_of_steps hrefusal r hr)
  obtain ⟨-, -, -, -, hfree⟩ :=
    tableHintRefusal?_eq_none (tableHintRefusal?_of_steps hrefusal r' hr')
  obtain ⟨hmem, hname⟩ := table?_eq_some hold
  exact hfree (List.mem_filterMap.mpr ⟨_, hmem, congrArg some (hname.trans heq)⟩)

theorem of_newTable {r : TableRename} (hr : r ∈ p.options.tableRenames) :
    Directory.of p.before r.new = none := by
  obtain ⟨-, -, -, -, hfree⟩ :=
    tableHintRefusal?_eq_none (tableHintRefusal?_of_steps hrefusal r hr)
  exact of_eq_none (map_statement_of_refusal? (refusal?_of_steps hrefusal).1) hfree

-- A name of a new table stays one if it becomes another.
theorem newName_mem {name : String} (h : name ∈ tableNames p.after) :
    newName (p.options.tableRenames.map fun r => (r.old, r.new)) name ∈ tableNames p.after := by
  unfold newName
  cases hfind : (p.options.tableRenames.map fun r => (r.old, r.new)).find? (·.1 == name) with
  | none => exact h
  | some pair =>
      obtain ⟨r, hr, rfl⟩ := List.mem_map.mp (List.mem_of_find?_eq_some hfind)
      obtain ⟨-, new, -, hnew, -⟩ :=
        tableHintRefusal?_eq_none (tableHintRefusal?_of_steps hrefusal r hr)
      exact mem_tableNames.mpr ⟨new, table?_eq_some hnew⟩

include hbefore

theorem of_oldTable {t : CreateTable} (ht : .table t ∈ objects p.before) :
    Directory.of p.before t.name.identity = some t.members :=
  of_table (map_statement_of_refusal? (refusal?_of_steps hrefusal).1) hbefore.tables ht

-- Table hints are checked against the schemas. What is left is that no two of them meet.
theorem follows_renames_iff : watch.Follows (.of p.before) (Step.statements p.renames) ↔
    (p.options.tableRenames.map (·.old)).Nodup ∧ (p.options.tableRenames.map (·.new)).Nodup := by
  have hhints := tableHintRefusal?_of_steps hrefusal
  have hthere : ∀ r ∈ p.options.tableRenames,
      (Directory.of p.before r.old).isSome = true ∧ ¬(Directory.of p.before r.new).isSome = true := by
    intro r hr
    obtain ⟨old, -, hold, -, -⟩ := tableHintRefusal?_eq_none (hhints r hr)
    obtain ⟨hmem, hname⟩ := table?_eq_some hold
    simp [← hname, of_oldTable hrefusal hbefore hmem, of_newTable hrefusal hr]
  rw [statements_renames, follows_renameTables, names_renamedTables hhints, renamable_iff]
  · simp only [List.forall_mem_map, List.map_map, Function.comp_def]
    exact and_iff_right hthere
  · simp only [List.forall_mem_map]
    exact hints_apart hrefusal

-- A table is there under the name that it became.
theorem execAll_renames (hold : (p.options.tableRenames.map (·.old)).Nodup)
    (hnew : (p.options.tableRenames.map (·.new)).Nodup) {t : CreateTable}
    (ht : .table t ∈ objects p.before) :
    watch.execAll (.of p.before) (Step.statements p.renames)
      (newName (p.options.tableRenames.map fun r => (r.old, r.new)) t.name.identity) =
        some t.members := by
  have hnames := names_renamedTables (tableHintRefusal?_of_steps hrefusal)
  have hpairs : ∀ r ∈ p.renamedTables, ∃ r' ∈ p.options.tableRenames,
      r.1.identity = r'.old ∧ r.2.name = r'.new := by
    intro r hr
    have hmem : (r.1.identity, r.2.name) ∈ p.options.tableRenames.map fun r => (r.old, r.new) :=
      hnames ▸ List.mem_map_of_mem hr
    obtain ⟨r', hr', heq⟩ := List.mem_map.mp hmem
    exact ⟨r', hr', (congrArg Prod.fst heq).symm, (congrArg Prod.snd heq).symm⟩
  have hthere := of_oldTable hrefusal hbefore ht
  rw [statements_renames, ← hthere, ← hnames]
  refine execAll_renameTables ?_ ?_ ?_ ?_ (by rw [hthere]; rfl)
  · have hfst := congrArg (List.map Prod.fst) hnames
    simp only [List.map_map, Function.comp_def] at hfst
    rwa [hfst]
  · have hsnd := congrArg (List.map Prod.snd) hnames
    simp only [List.map_map, Function.comp_def] at hsnd
    rwa [hsnd]
  · intro r hr
    obtain ⟨r', hr', -, hname⟩ := hpairs r hr
    rw [hname, of_newTable hrefusal hr']
  · intro r hr s hs
    obtain ⟨r', hr', hname, -⟩ := hpairs r hr
    obtain ⟨s', hs', -, hname'⟩ := hpairs s hs
    rw [hname, hname']
    exact hints_apart hrefusal r' hr' s' hs'

-- Behind the tables that are renamed, dropped and created, a table that both schemas have is there
-- under its new name, with its old names in it.
theorem execAll_ahead (hold : (p.options.tableRenames.map (·.old)).Nodup)
    (hnew : (p.options.tableRenames.map (·.new)).Nodup) {new : SchemaObject}
    (hmem : new ∈ objects p.after) {q : TablePair} (hq : p.tablePair? new = some q) :
    watch.execAll (watch.execAll (watch.execAll (.of p.before) (Step.statements p.renames))
      (Step.statements p.drops)) (Step.statements p.creates) q.table = some q.old.members := by
  obtain ⟨old, t, hfound, rfl, rfl⟩ := tablePair?_eq_some hq
  have hmemold : .table old ∈ objects p.before :=
    List.mem_reverse.mp (List.mem_of_find?_eq_some hfound)
  have hrenamed := execAll_renames hrefusal hbefore hold hnew hmemold
  have hkey := List.find?_some hfound
  rw [beq_iff_eq, oldKey_table] at hkey
  rw [ObjectKey.table.inj hkey] at hrenamed
  have hkept : t.name.identity ∉
      ((objects p.before).reverse.filter p.isDropped).filterMap tableName? := by
    intro hm
    obtain ⟨x, hx, hxname⟩ := List.mem_filterMap.mp hm
    cases x with
    | index i => cases hxname
    | table x =>
        obtain hxname : x.name.identity = t.name.identity := Option.some.inj hxname
        refine not_mem_of_isDropped (List.mem_filter.mp hx).2 (newName_mem hrefusal ?_)
        exact hxname ▸ List.mem_filterMap.mpr ⟨_, hmem, rfl⟩
  rw [drops, Step.statements_map_emit, statements_creates]
  refine execAll_statements_of_some ((execAll_drops_of_not_mem _ _ hkept ?_).trans hrenamed)
  intro i hi m hm
  obtain rfl : old.members = m := Option.some.inj (hrenamed.symm.trans hm)
  exact hbefore.index_not_mem (List.mem_reverse.mp (List.mem_filter.mp hi).1) hmemold

end

-- A pass over one object changes no table of another name.
theorem execAll_alterSteps {new : SchemaObject} {name : String} (hne : new.tableName? ≠ some name)
    (hindexes : ∀ q ∈ p.tablePair? new, ∀ m ∈ o name,
      Disjoint q.old.members.indexes m.indexes) :
    watch.execAll o (Step.statements (p.alterSteps new)) name = o name := by
  refine Watch.execAll_of (P := fun o' : Directory => o' name = o name) (fun s hs o' ho => ?_) rfl
  rw [← ho] at hindexes ⊢
  cases hq : p.tablePair? new with
  | none =>
      obtain ⟨i, rfl⟩ := createsIndex_of_none hq s hs
      rfl
  | some q =>
      rw [alterSteps_of_some hq] at hs
      refine exec_of_plans (TablePair.plans_steps s hs) ?_ (hindexes q hq)
      obtain ⟨old, t, -, rfl, rfl⟩ := tablePair?_eq_some hq
      exact fun heq => hne (congrArg some heq.symm)

-- The old versions of two new tables are two tables.
theorem disjoint_pairs (hbefore : Distinct p.before) {new new' : SchemaObject} {q q' : TablePair}
    (hq : p.tablePair? new = some q) (hq' : p.tablePair? new' = some q')
    (hne : new.tableName? ≠ new'.tableName?) :
    Disjoint q.old.members.indexes q'.old.members.indexes := by
  obtain ⟨old, t, hold, rfl, rfl⟩ := tablePair?_eq_some hq
  obtain ⟨old', t', hold', rfl, rfl⟩ := tablePair?_eq_some hq'
  refine hbefore.disjoint_indexes (List.mem_reverse.mp (List.mem_of_find?_eq_some hold))
    (List.mem_reverse.mp (List.mem_of_find?_eq_some hold')) fun hname => hne ?_
  have hkey := List.find?_some hold
  have hkey' := List.find?_some hold'
  rw [beq_iff_eq, oldKey_table] at hkey hkey'
  rw [show old.name.identity = old'.name.identity from hname] at hkey
  exact congrArg some (ObjectKey.table.inj (hkey.symm.trans hkey'))

-- The tables are changed one after the other, each of them by itself.
theorem follows_alters_iff (hrefusal : Step.refusal? p.steps = none) (hbefore : Distinct p.before)
    (hafter : Distinct p.after)
    (ho : ∀ new ∈ objects p.after, ∀ q ∈ p.tablePair? new, o q.table = some q.old.members) :
    watch.Follows o (Step.statements p.alters) ↔
      ∀ new ∈ objects p.after, ∀ q ∈ p.tablePair? new, q.Apt := by
  rw [alters, Step.statements_flatMap]
  -- The tables that are still to come have their old names.
  refine (Watch.follows_flatMap (K := fun pre o => ∀ post, objects p.after = pre ++ post →
    ∀ new ∈ post, ∀ q ∈ p.tablePair? new, o q.table = some q.old.members) ?_ ?_).2
  · rintro post hsplit
    obtain rfl : objects p.after = post := hsplit
    exact ho
  · intro pre a post o hsplit hknown
    refine ⟨fun post' hsplit' new hnew q hq => ?_, ?_⟩
    · have hsame := hknown (a :: post') (by simpa using hsplit') new (by simp [hnew]) q hq
      have hname : new.tableName? = some q.table := by
        obtain ⟨old, t, -, rfl, rfl⟩ := tablePair?_eq_some hq
        rfl
      have hne : a.tableName? ≠ some q.table := by
        have hnames := hafter.tables
        rw [tableNames, hsplit', List.filterMap_append, List.nodup_append] at hnames
        exact fun ha => hnames.2.2 _ (List.mem_filterMap.mpr ⟨a, by simp, ha⟩) _
          (List.mem_filterMap.mpr ⟨_, hnew, hname⟩) rfl
      refine (execAll_alterSteps hne fun q' hq' m hm => ?_).trans hsame
      obtain rfl : q.old.members = m := Option.some.inj (hsame.symm.trans hm)
      exact disjoint_pairs hbefore hq' hq (hname ▸ hne)
    · cases hq : p.tablePair? a with
      | none =>
          refine iff_of_true (Watch.follows_of_forall fun s hs o => ?_) (by simp)
          obtain ⟨i, rfl⟩ := createsIndex_of_none hq s hs
          trivial
      | some q =>
          have hstate := hknown (a :: post) hsplit a (by simp) q hq
          have hmem : a ∈ objects p.after := hsplit ▸ by simp
          have hsteps : Step.refusal? q.steps = none := by
            refine Step.refusal?_eq_none_of_mem (refusal?_of_steps hrefusal).2.2 fun step hs => ?_
            rw [← alterSteps_of_some hq] at hs
            exact List.mem_flatMap.mpr ⟨a, hmem, hs⟩
          have hnames : (q.old.constraints.map (·.name.name)).Nodup := by
            obtain ⟨old, t, hold, -, rfl⟩ := tablePair?_eq_some hq
            exact hbefore.constraints _ (List.mem_reverse.mp (List.mem_of_find?_eq_some hold))
          rw [alterSteps_of_some hq, TablePair.follows_steps hsteps hstate hnames]
          simp

end SchemaPair

-- A renamed table, column or constraint is there under its old name, and nothing under its new one,
-- exactly if the hints fit the old schema and each other. They are not refused if they do not.
theorem diff_renames_iff {d : Dialect} {options : Options} {before after m : Script}
    (hbefore : Distinct before) (hafter : Distinct after)
    (h : diff d options (some before) (some after) = .ok m) :
    Directory.watch.Follows (.of before) m ↔ SchemaPair.Apt ⟨d, options, before, after⟩ := by
  obtain ⟨hrefusal, rfl, -⟩ := diff_some_eq_ok h
  have hdrops : ∀ o, watch.Follows o (Step.statements
      (SchemaPair.drops ⟨d, options, before, after⟩)) := by
    refine fun o => Watch.follows_of_forall fun s hs o => ?_
    rw [SchemaPair.drops, Step.statements_map_emit] at hs
    obtain ⟨x, -, rfl⟩ := List.mem_map.mp hs
    cases x <;> trivial
  have hcreates : ∀ o, watch.Follows o (Step.statements
      (SchemaPair.creates ⟨d, options, before, after⟩)) := by
    refine fun o => Watch.follows_of_forall fun s hs o => ?_
    rw [SchemaPair.statements_creates] at hs
    obtain ⟨x, -, rfl⟩ := List.mem_map.mp hs
    cases x <;> trivial
  rw [SchemaPair.statements_steps, Watch.follows_append, Watch.follows_append, Watch.follows_append,
    iff_true_intro (hdrops _), true_and, iff_true_intro (hcreates _), true_and,
    SchemaPair.follows_renames_iff hrefusal hbefore]
  constructor
  · rintro ⟨⟨hold, hnew⟩, halters⟩
    refine ⟨hold, hnew, (SchemaPair.follows_alters_iff hrefusal hbefore hafter ?_).mp halters⟩
    exact fun new hmem q hq => SchemaPair.execAll_ahead hrefusal hbefore hold hnew hmem hq
  · rintro ⟨hold, hnew, htables⟩
    refine ⟨⟨hold, hnew⟩, (SchemaPair.follows_alters_iff hrefusal hbefore hafter ?_).mpr htables⟩
    exact fun new hmem q hq => SchemaPair.execAll_ahead hrefusal hbefore hold hnew hmem hq

-- A table of one column with its primary key.
def keyed (table column key : String) : Statement :=
  .createTable ⟨false, .ofIdent (.bare table),
    [⟨.bare column, ⟨"INT", [], [], 0⟩, true, none, false⟩],
    [⟨.bare key, .primaryKey [.ascending (.bare column)]⟩], []⟩

-- The table, its key and its column are renamed.
theorem diff_renames_keyed : ∃ m,
    diff .postgres ⟨false, [⟨"t", "u"⟩], [⟨"u", "a", "b"⟩]⟩ (some [keyed "t" "a" "t_pkey"])
      (some [keyed "u" "b" "u_pkey"]) = .ok m ∧
    Directory.watch.Follows (.of [keyed "t" "a" "t_pkey"]) m := by
  have hdiff : diff .postgres ⟨false, [⟨"t", "u"⟩], [⟨"u", "a", "b"⟩]⟩
      (some [keyed "t" "a" "t_pkey"]) (some [keyed "u" "b" "u_pkey"]) =
        .ok [.alterTable (.ofIdent (.bare "t")) (.renameTable (.bare "u")),
          .alterTable (.ofIdent (.bare "u")) (.renameConstraint (.bare "t_pkey") (.bare "u_pkey")),
          .alterTable (.ofIdent (.bare "u")) (.renameColumn (.bare "a") (.bare "b"))] := by
    decide +kernel
  exact ⟨_, hdiff,
    (diff_renames_iff (by decide) (by decide) hdiff).mpr (by decide +kernel)⟩

def plainTable (columns : List String) : Statement :=
  .createTable ⟨false, .ofIdent (.bare "t"),
    columns.map fun name => ⟨.bare name, ⟨"INT", [], [], 0⟩, false, none, false⟩, [], []⟩

-- The column gets the name of one that is still there.
theorem not_renamable_taken : ∃ m,
    Script.parse .postgres "CREATE TABLE t (a INT, b INT);" = .ok [plainTable ["a", "b"]] ∧
    Script.parse .postgres "CREATE TABLE t (b INT);" = .ok [plainTable ["b"]] ∧
    Distinct [plainTable ["a", "b"]] ∧ Distinct [plainTable ["b"]] ∧
    diff .postgres ⟨false, [], [⟨"t", "a", "b"⟩]⟩ (some [plainTable ["a", "b"]])
      (some [plainTable ["b"]]) = .ok m ∧
    ¬Directory.watch.Follows (.of [plainTable ["a", "b"]]) m := by
  have hdiff : diff .postgres ⟨false, [], [⟨"t", "a", "b"⟩]⟩ (some [plainTable ["a", "b"]])
      (some [plainTable ["b"]]) = .ok [.alterTable (.ofIdent (.bare "t"))
        (.renameColumn (.bare "a") (.bare "b"))] := by
    decide +kernel
  refine ⟨_, by decide +kernel, by decide +kernel, by decide, by decide, hdiff, fun h => ?_⟩
  obtain ⟨m, hm, -, hfree⟩ := h.1
  obtain rfl : m = ⟨{"a", "b"}, ∅, ∅⟩ := by
    have hof : Directory.of [plainTable ["a", "b"]] "t" = some ⟨{"a", "b"}, ∅, ∅⟩ := by decide
    exact (Option.some.inj (hof.symm.trans hm)).symm
  exact absurd hfree (by decide)

end SchemaDiff.Migration
