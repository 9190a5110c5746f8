import SchemaDiff.Proofs.Migration.Aims
import SchemaDiff.Proofs.Migration.Convergence

namespace SchemaDiff

open Migration SchemaObject

namespace Catalog

section Lookup

variable {os : List SchemaObject} {t : CreateTable}

theorem tables_of_mem (h : Orderly os) (ht : .table t ∈ os) :
    (ofObjects os).tables t.name.identity = some (.of t) := by
  refine (Store.lookup_eq_some_iff_mem ?_).mpr (List.mem_filterMap.mpr ⟨_, ht, rfl⟩)
  rw [map_tableEntryOf?]
  exact h.tables

theorem tables_eq_none {name : String} (h : ∀ t, .table t ∈ os → t.name.identity ≠ name) :
    (ofObjects os).tables name = none := by
  refine Store.ofList_eq_none fun hm => ?_
  rw [map_tableEntryOf?] at hm
  obtain ⟨o, ho, hname⟩ := List.mem_filterMap.mp hm
  cases o with
  | table t => exact h t ho (Option.some.inj hname)
  | index i => cases hname

theorem indexes_eq_some (h : Orderly os) {name : String} {index : IndexState} :
    (ofObjects os).indexes name = some index ↔ ∃ o ∈ os, (name, index) ∈ o.indexEntries := by
  have hnodup : ((os.flatMap indexEntries).map Prod.fst).Nodup := by
    rw [List.map_flatMap]
    exact h.indexes
  exact (Store.lookup_eq_some_iff_mem hnodup).trans List.mem_flatMap

theorem lookup_columns (columns : List Column) (name : String) :
    (columns.map Column.entry).lookup name =
      (columns.find? (·.name.name == name)).map ColumnState.of := by
  induction columns with
  | nil => rfl
  | cons c columns ih =>
      rw [List.map_cons, Column.entry, List.lookup_cons, List.find?_cons, ih]
      by_cases hname : c.name.name = name
      · simp [hname]
      · simp [beq_false_of_ne hname, beq_false_of_ne (Ne.symm hname)]

theorem column?_of_mem (h : Orderly os) (ht : .table t ∈ os) (name : String) :
    (ofObjects os).column? t.name.identity name = (t.column? name).map ColumnState.of := by
  rw [column?, tables_of_mem h ht]
  exact lookup_columns t.columns name

theorem constraint?_of_mem (h : Orderly os) (ht : .table t ∈ os) {name definition : String} :
    (ofObjects os).constraint? t.name.identity name = some definition ↔
      ∃ c ∈ t.constraints, c.isIndex = false ∧ c.name.name = name ∧ c.definition = definition := by
  have hnodup : ((t.constraints.filterMap Constraint.entryOf?).map Prod.fst).Nodup :=
    Store.nodup_map_filterMap _ (fun _ _ => Constraint.entryOf?_name) (h.constraints _ ht)
  rw [constraint?, tables_of_mem h ht]
  refine (Store.lookup_eq_some_iff_mem hnodup).trans (List.mem_filterMap.trans ?_)
  refine exists_congr fun c => and_congr_right fun _ => ?_
  cases hindex : c.isIndex with
  | false => simp [Constraint.entryOf?_of_not_isIndex hindex]
  | true => simp [Constraint.entryOf?_of_isIndex hindex]

end Lookup

end Catalog

namespace Migration

namespace SchemaPair

variable {p : SchemaPair} {s : Statement}

section Needed

open Catalog

-- Statements that lead from the old schema to the new one, each with its reason.
structure Reaches (p : SchemaPair) (m : Script) : Prop where
  named : p.Named
  before : Orderly (objects p.before)
  after : Orderly (objects p.after)
  compatible : Compatible (objects p.before) (objects p.after)
  reason : ∀ s ∈ m, p.Reason s
  run : Catalog.run m (ofScript p.before) = some (ofScript p.after)

variable {m : Script} (hm : p.Reaches m)

include hm in
-- What the schemas do not agree on is changed by one of the statements.
theorem Reaches.exists_aim {P : Catalog → Prop} {a : Aim} (hbefore : P (ofScript p.before))
    (hafter : ¬P (ofScript p.after))
    (hkeep : ∀ s ∈ m, s.aim ≠ a → ∀ c c', Effect c s c' → P c → P c') : ∃ s ∈ m, s.aim = a := by
  by_contra hnone
  refine hafter (run_keeps (fun s hs => (hm.reason s hs).aim_ne_rename) ?_ hm.run hbefore)
  exact fun s hs => hkeep s hs fun ha => hnone ⟨s, hs, ha⟩

include hm in
theorem Reaches.exists_dropTable {t : CreateTable} (ht : .table t ∈ objects p.before)
    (hgone : ∀ u, .table u ∈ objects p.after → u.name.identity ≠ t.name.identity) :
    ∃ s ∈ m, s.aim = .dropTable t.name.identity := by
  refine hm.exists_aim (P := fun c => (c.tables t.name.identity).isSome = true) ?_ ?_
    fun s _ hne c c' heffect => heffect.tables_isSome hne
  · rw [ofScript, tables_of_mem hm.before ht]
    rfl
  · rw [ofScript, tables_eq_none hgone]
    exact Bool.false_ne_true

include hm in
theorem Reaches.exists_createTable {u : CreateTable} (hu : .table u ∈ objects p.after)
    (hfresh : ∀ t, .table t ∈ objects p.before → t.name.identity ≠ u.name.identity) :
    ∃ s ∈ m, s.aim = .createTable u.name.identity := by
  refine hm.exists_aim (P := fun c => c.tables u.name.identity = none) (tables_eq_none hfresh) ?_
    fun s _ hne c c' heffect => heffect.tables_eq_none hne
  rw [ofScript, tables_of_mem hm.after hu]
  exact Option.some_ne_none _

include hm in
theorem Reaches.exists_dropIndex {x : SchemaObject} {name : String} {index : IndexState}
    (hx : x ∈ objects p.before) (hentry : (name, index) ∈ x.indexEntries)
    (hgone : ∀ y ∈ objects p.after, (name, index) ∉ y.indexEntries)
    (hstays : ∀ s ∈ m, s.aim ≠ .dropTable index.table) : ∃ s ∈ m, s.aim = .dropIndex name := by
  refine hm.exists_aim (P := fun c => c.indexes name = some index)
    ((indexes_eq_some hm.before).mpr ⟨x, hx, hentry⟩) (fun hi => ?_)
    fun s hs hne c c' heffect => heffect.indexes_eq hne (hstays s hs)
  obtain ⟨y, hy, hentry'⟩ := (indexes_eq_some hm.after).mp hi
  exact hgone y hy hentry'

include hm in
theorem Reaches.exists_createIndex {y : SchemaObject} {name : String} {index : IndexState}
    (hy : y ∈ objects p.after) (hentry : (name, index) ∈ y.indexEntries)
    (hfresh : ∀ x ∈ objects p.before, (name, index) ∉ x.indexEntries)
    (hold : ∀ u, y = .table u →
      ∃ t, .table t ∈ objects p.before ∧ t.name.identity = u.name.identity) :
    ∃ s ∈ m, s.aim = .createIndex name := by
  refine hm.exists_aim (P := fun c => c.indexes name ≠ some index) (fun hi => ?_)
    (fun hne => hne ((indexes_eq_some hm.after).mpr ⟨y, hy, hentry⟩))
    fun s hs hne c c' heffect => heffect.indexes_ne hne ?_
  · obtain ⟨x, hx, hentry'⟩ := (indexes_eq_some hm.before).mp hi
    exact hfresh x hx hentry'
  · -- The index does not come with a new table.
    rintro u rfl hname
    have hu : .table u ∈ objects p.after := by
      cases hm.reason _ hs with
      | createTable hu => exact hu
      | alter ht hu' hname' hs => cases hs
    have hyu : y = .table u :=
      hm.named.after.eq_of_mem_indexNames hy hu (List.mem_map.mpr ⟨_, hentry, rfl⟩) hname
    obtain ⟨t, ht, heq⟩ := hold u hyu
    exact (hm.reason _ hs).of_createTable rfl t ht heq

section Shared

-- The two versions of a table.
structure Versions (p : SchemaPair) (t u : CreateTable) : Prop where
  old : .table t ∈ objects p.before
  new : .table u ∈ objects p.after
  name : t.name.identity = u.name.identity

variable {t u : CreateTable} (ht : p.Versions t u)

include hm ht in
theorem Reaches.ne_dropTable : ∀ s ∈ m, s.aim ≠ .dropTable u.name.identity := by
  intro s hs heq
  exact (hm.reason s hs).of_dropTable heq u ht.new rfl

include hm ht in
theorem Reaches.ne_createTable : ∀ s ∈ m, s.aim ≠ .createTable u.name.identity := by
  intro s hs heq
  exact (hm.reason s hs).of_createTable heq t ht.old ht.name

include hm ht in
theorem Reaches.exists_dropConstraint {c : Constraint} (hc : c ∈ t.constraints)
    (hindex : c.isIndex = false) (hgone : ∀ k ∈ u.constraints, k.isIndex = false →
      k.name.name = c.name.name → k.definition ≠ c.definition) :
    ∃ s ∈ m, s.aim = .dropConstraint u.name.identity c.name.name := by
  refine hm.exists_aim
    (P := fun d => d.constraint? u.name.identity c.name.name = some c.definition) ?_ (fun hk => ?_)
    fun s hs hne d d' heffect => heffect.constraint?_eq (hm.ne_dropTable ht s hs) hne
  · rw [← ht.name]
    exact (constraint?_of_mem hm.before ht.old).mpr ⟨c, hc, hindex, rfl, rfl⟩
  · obtain ⟨k, hk, hindex', hname', hdefinition⟩ := (constraint?_of_mem hm.after ht.new).mp hk
    exact hgone k hk hindex' hname' hdefinition

include hm ht in
theorem Reaches.exists_addConstraint {c : Constraint} (hc : c ∈ u.constraints)
    (hindex : c.isIndex = false) (hfresh : ∀ k ∈ t.constraints, k.isIndex = false →
      k.name.name = c.name.name → k.definition ≠ c.definition) :
    ∃ s ∈ m, s.aim = .addConstraint u.name.identity c.name.name := by
  refine hm.exists_aim
    (P := fun d => d.constraint? u.name.identity c.name.name ≠ some c.definition) (fun hk => ?_)
    (fun hne => hne ((constraint?_of_mem hm.after ht.new).mpr ⟨c, hc, hindex, rfl, rfl⟩))
    fun s hs hne d d' heffect =>
      heffect.constraint?_ne (hm.ne_createTable ht s hs) hne
  rw [← ht.name] at hk
  obtain ⟨k, hk, hindex', hname', hdefinition⟩ := (constraint?_of_mem hm.before ht.old).mp hk
  exact hfresh k hk hindex' hname' hdefinition

include hm ht in
theorem Reaches.exists_dropColumn {name : String} (hold : (t.column? name).isSome = true)
    (hgone : u.column? name = none) : ∃ s ∈ m, s.aim = .dropColumn u.name.identity name := by
  refine hm.exists_aim (P := fun c => (c.column? u.name.identity name).isSome = true) ?_ ?_
    fun s hs hne c c' heffect => heffect.column?_isSome (hm.ne_dropTable ht s hs) hne
  · rw [← ht.name, ofScript, column?_of_mem hm.before ht.old]
    simpa using hold
  · rw [ofScript, column?_of_mem hm.after ht.new, hgone]
    exact Bool.false_ne_true

-- A column that is not as it should be does not become so by other statements than those for it.
include hm ht in
theorem Reaches.exists_column {name : String} {a : Aim} {G : ColumnState → Prop} {new : Column}
    (hold : ∀ old, t.column? name = some old → ¬G (.of old)) (hnew : u.column? name = some new)
    (hgood : G (.of new))
    (hothers : ∀ s ∈ m, s.aim ≠ a → s.aim ≠ .addColumn u.name.identity name ∧
      s.aim ≠ .modifyColumn u.name.identity name ∧
      ∀ altered column change, s = .alterTable altered (.alterColumn column change) →
        altered.identity = u.name.identity → column.name = name →
          ∀ x : ColumnState, G (x.change change) → G x) :
    ∃ s ∈ m, s.aim = a := by
  refine hm.exists_aim (P := fun c => ∀ x ∈ c.column? u.name.identity name, ¬G x) ?_
    (fun hbad => ?_) fun s hs hne c c' heffect => ?_
  · rw [← ht.name, ofScript, column?_of_mem hm.before ht.old]
    rintro x hx
    obtain ⟨old, hold', rfl⟩ := Option.map_eq_some_iff.mp hx
    exact hold old hold'
  · refine hbad (.of new) ?_ hgood
    rw [ofScript, column?_of_mem hm.after ht.new, hnew]
    rfl
  · obtain ⟨hadd, hmodify, hchange⟩ := hothers s hs hne
    exact heffect.column?_not (hm.ne_createTable ht s hs) hadd hmodify hchange

-- The statements about a column that both versions have.
structure ColumnPair (t u : CreateTable) (old new : Column) : Prop where
  nodup : (u.columns.map (·.name.name)).Nodup
  mem : new ∈ u.columns
  old : t.column? new.name.name = some old

variable {old new : Column}

theorem ColumnPair.column?_eq (hc : ColumnPair t u old new) : u.column? new.name.name = some new :=
  (TablePair.find?_name_eq_some hc.nodup).mpr ⟨hc.mem, rfl⟩

theorem ColumnPair.unique (hc : ColumnPair t u old new) {old' new' : Column}
    (hnew : new' ∈ u.columns) (hname : new'.name.name = new.name.name)
    (hold : t.column? new.name.name = some old') : old' = old ∧ new' = new :=
  ⟨Option.some.inj (hold.symm.trans hc.old), List.inj_on_of_nodup_map hc.nodup hnew hc.mem hname⟩

include hm ht in
theorem Reaches.ne_addColumn (hc : ColumnPair t u old new) :
    ∀ s ∈ m, s.aim ≠ .addColumn u.name.identity new.name.name := by
  intro s hs heq
  have hreason := hm.named.reason_of_table? ht.old ht.new ht.name (hm.reason s hs) (by rw [heq]; rfl)
  have hnone : t.column? new.name.name = none := hreason.of_addColumn heq
  rw [hc.old] at hnone
  cases hnone

include hm ht in
theorem Reaches.ne_modifyColumn (hc : ColumnPair t u old new)
    (hstyle : p.dialect.alterColumnStyle = .modify → TablePair.needsModify old new = false) :
    ∀ s ∈ m, s.aim ≠ .modifyColumn u.name.identity new.name.name := by
  intro s hs heq
  have hreason := hm.named.reason_of_table? ht.old ht.new ht.name (hm.reason s hs) (by rw [heq]; rfl)
  obtain ⟨hmodify, old', new', hnew', hname', hold', hneeds⟩ := hreason.of_modifyColumn heq
  obtain ⟨rfl, rfl⟩ := hc.unique hnew' hname' hold'
  rw [hstyle hmodify] at hneeds
  cases hneeds

include hm ht in
-- One attribute of a column, which is not written anew as a whole.
theorem Reaches.exists_attribute {α : Type} (field : ColumnState → α) {a : Aim}
    (hc : ColumnPair t u old new)
    (hstyle : p.dialect.alterColumnStyle = .modify → TablePair.needsModify old new = false)
    (hne : field (.of old) ≠ field (.of new))
    (hchange : ∀ change : ColumnChange, change.aim u.name.identity new.name.name ≠ a →
      ∀ x : ColumnState, field (x.change change) = field x) : ∃ s ∈ m, s.aim = a := by
  refine hm.exists_column ht (G := fun x => field x = field (.of new))
    (fun old' hold' => ?_) hc.column?_eq rfl fun s hs hother => ⟨hm.ne_addColumn ht hc s hs,
      hm.ne_modifyColumn ht hc hstyle s hs, ?_⟩
  · rwa [Option.some.inj (hold'.symm.trans hc.old)]
  · rintro altered column change rfl haltered hcolumn x hgood
    rw [← hgood]
    refine (hchange change ?_ x).symm
    rw [← haltered, ← hcolumn]
    exact hother

include hm ht in
theorem Reaches.exists_modifyColumn (hc : ColumnPair t u old new)
    (hstyle : p.dialect.alterColumnStyle = .modify)
    (hneeds : TablePair.needsModify old new = true) :
    ∃ s ∈ m, s.aim = .modifyColumn u.name.identity new.name.name := by
  refine hm.exists_column ht (G := fun x => x = .of new)
    (fun old' hold' => ?_) hc.column?_eq rfl fun s hs hother => ⟨hm.ne_addColumn ht hc s hs,
      hother, ?_⟩
  · rw [Option.some.inj (hold'.symm.trans hc.old)]
    intro heq
    obtain ⟨htype, hnull, -, hincrement⟩ := ColumnState.mk.inj heq
    simp [TablePair.needsModify, htype, hnull, hincrement] at hneeds
  · rintro altered column change rfl haltered hcolumn
    have htable : (change.aim altered.identity column.name).table? = some u.name.identity := by
      rw [haltered]
      cases change <;> rfl
    have hreason := hm.named.reason_of_table? ht.old ht.new ht.name (hm.reason _ hs) htable
    obtain ⟨old', new', hnew', hname', hold', hnot⟩ := hreason.of_alterColumn
    rw [hcolumn] at hname' hold'
    obtain ⟨rfl, rfl⟩ := hc.unique hnew' hname' hold'
    rw [hnot hstyle] at hneeds
    cases hneeds

include hm ht in
theorem Reaches.exists_addColumn (hnodup : (u.columns.map (·.name.name)).Nodup)
    (hnew : new ∈ u.columns) (hfresh : t.column? new.name.name = none) :
    ∃ s ∈ m, s.aim = .addColumn u.name.identity new.name.name := by
  refine hm.exists_column ht (G := fun _ => True) (fun old hold => ?_)
    ((TablePair.find?_name_eq_some hnodup).mpr ⟨hnew, rfl⟩) trivial fun s hs hother =>
      ⟨hother, fun heq => ?_, fun _ _ _ _ _ _ _ _ => trivial⟩
  · rw [hfresh] at hold
    cases hold
  · have hreason := hm.named.reason_of_table? ht.old ht.new ht.name (hm.reason s hs) (by rw [heq]; rfl)
    obtain ⟨-, old, -, -, -, hold, -⟩ := hreason.of_modifyColumn heq
    cases hfresh.symm.trans hold

include hm ht in
-- Each change of a column is there in any run.
theorem Reaches.exists_change {change : TableChange} (hs : (p.tablePair t u).ColumnReason change) :
    ∃ s ∈ m, s.aim = change.aim u.name.identity := by
  have hnodup : (u.columns.map (·.name.name)).Nodup := hm.after.columns _ ht.new
  cases hs with
  | @dropColumn old hold hgone =>
      refine hm.exists_dropColumn ht ?_ hgone
      exact List.find?_isSome.mpr ⟨old, hold, by simp⟩
  | setDataType hnew hold hstyle hne =>
      have hc : ColumnPair t u _ _ := ⟨hnodup, hnew, hold⟩
      refine hm.exists_attribute ht ColumnState.dataType hc
        (fun hmodify => ?_) hne fun change hother x => ?_
      · cases hstyle.symm.trans hmodify
      · cases change with
        | setDataType => exact absurd rfl hother
        | _ => rfl
  | changeDefault hnew hold hstyle hne =>
      have hc : ColumnPair t u _ _ := ⟨hnodup, hnew, hold⟩
      refine hm.exists_attribute ht ColumnState.default hc hstyle hne
        fun change hother x => ?_
      simp only [TableChange.aim, ColumnChange.aim_default] at hother
      cases change with
      | setDefault | dropDefault => exact absurd rfl hother
      | _ => rfl
  | changeNull hnew hold hstyle hne =>
      have hc : ColumnPair t u _ _ := ⟨hnodup, hnew, hold⟩
      refine hm.exists_attribute ht ColumnState.notNull hc
        (fun hmodify => ?_) hne fun change hother x => ?_
      · cases hstyle.symm.trans hmodify
      · simp only [TableChange.aim, ColumnChange.aim_null] at hother
        cases change with
        | setNotNull | dropNotNull => exact absurd rfl hother
        | _ => rfl
  | modifyColumn hnew hold hstyle hneeds =>
      exact hm.exists_modifyColumn ht ⟨hnodup, hnew, hold⟩ hstyle hneeds
  | addColumn hnew hfresh => exact hm.exists_addColumn ht hnodup hnew hfresh

end Shared

-- An index of one schema that the other one has as well.
theorem Reaches.key_eq {x y : SchemaObject} {name : String} {index : IndexState}
    (hm : p.Reaches m) (hx : x ∈ objects p.before) (hy : y ∈ objects p.after)
    (hentry : (name, index) ∈ x.indexEntries) (hentry' : (name, index) ∈ y.indexEntries) :
    x.key = y.key :=
  hm.compatible x hx y hy name (List.mem_map.mpr ⟨_, hentry, rfl⟩)
    (List.mem_map.mpr ⟨_, hentry', rfl⟩)

theorem exists_index_of_entry {i : CreateIndex} {y : SchemaObject}
    (hkey : y.key = (SchemaObject.index i).key)
    (hentry : (i.name.identity, IndexState.of i) ∈ y.indexEntries) :
    ∃ j, y = .index j ∧ j.name.identity = i.name.identity ∧ i.identity = j.identity := by
  cases y with
  | table t => cases hkey
  | index j =>
      obtain ⟨hname, hstate⟩ := Prod.mk.inj (List.mem_singleton.mp hentry)
      exact ⟨j, rfl, hname.symm, CreateIndex.identity_eq_of_state hname hstate⟩

include hm in
theorem Reaches.exists_of_dropIndex {i : CreateIndex} (hi : .index i ∈ objects p.before)
    (hgone : ∀ j, .index j ∈ objects p.after → j.name.identity = i.name.identity →
      i.identity ≠ j.identity)
    (hstays : ∀ s ∈ m, s.aim ≠ .dropTable i.table.identity) :
    ∃ s ∈ m, s.aim = .dropIndex i.name.identity := by
  have hentry : (i.name.identity, IndexState.of i) ∈ (SchemaObject.index i).indexEntries :=
    List.mem_singleton.mpr rfl
  refine hm.exists_dropIndex hi hentry (fun y hy hentry' => ?_) hstays
  obtain ⟨j, rfl, hname, hsame⟩ := exists_index_of_entry (hm.key_eq hi hy hentry hentry').symm hentry'
  exact hgone j hy hname hsame

include hm in
theorem Reaches.exists_of_createIndex {i : CreateIndex} (hi : .index i ∈ objects p.after)
    (hfresh : ∀ j, .index j ∈ objects p.before → j.name.identity = i.name.identity →
      j.identity ≠ i.identity) :
    ∃ s ∈ m, s.aim = .createIndex i.name.identity := by
  have hentry : (i.name.identity, IndexState.of i) ∈ (SchemaObject.index i).indexEntries :=
    List.mem_singleton.mpr rfl
  refine hm.exists_createIndex hi hentry (fun x hx hentry' => ?_) fun u hu => by cases hu
  obtain ⟨j, rfl, hname, hsame⟩ := exists_index_of_entry (hm.key_eq hx hi hentry' hentry) hentry'
  exact hfresh j hx hname hsame.symm

section Inline

variable {t u : CreateTable} (ht : p.Versions t u) {c : Constraint} {e : String × IndexState}

include hm ht in
theorem Reaches.exists_old_constraint (he : c.indexEntryOf? u.name.identity = some e)
    (hc : c ∈ u.constraints) {x : SchemaObject} (hx : x ∈ objects p.before)
    (hentry : e ∈ x.indexEntries) :
    ∃ k ∈ t.constraints, k.name.name = c.name.name ∧ c.definition = k.definition := by
  have hkey := hm.key_eq hx ht.new hentry (List.mem_filterMap.mpr ⟨c, hc, he⟩)
  have hxt : x = .table t := List.inj_on_of_nodup_map hm.named.before.keys_nodup hx ht.old
    (hkey.trans (congrArg ObjectKey.table ht.name.symm))
  subst hxt
  obtain ⟨k, hk, hke⟩ := List.mem_filterMap.mp hentry
  obtain ⟨hname, hdefinition⟩ := Constraint.eq_of_indexEntry hke he
  exact ⟨k, hk, hname, hdefinition.symm⟩

include hm ht in
theorem Reaches.exists_new_constraint (he : c.indexEntryOf? t.name.identity = some e)
    (hc : c ∈ t.constraints) {y : SchemaObject} (hy : y ∈ objects p.after)
    (hentry : e ∈ y.indexEntries) :
    ∃ k ∈ u.constraints, k.name.name = c.name.name ∧ k.definition = c.definition := by
  have hkey := hm.key_eq ht.old hy (List.mem_filterMap.mpr ⟨c, hc, he⟩) hentry
  have hyu : y = .table u := List.inj_on_of_nodup_map hm.named.after.keys_nodup hy ht.new
    (hkey.symm.trans (congrArg ObjectKey.table ht.name))
  subst hyu
  obtain ⟨k, hk, hke⟩ := List.mem_filterMap.mp hentry
  exact ⟨k, hk, Constraint.eq_of_indexEntry hke he⟩

include hm ht in
-- Each statement for a table is there in any run.
theorem Reaches.exists_of_reason {s : Statement} (hs : (p.tablePair t u).Reason s) :
    ∃ x ∈ m, x.aim = s.aim := by
  have hkeeps : ∀ {c : Constraint}, (p.tablePair t u).keeps c = true ↔ ∃ k ∈ u.constraints,
      k.name.name = c.name.name ∧ k.definition = c.definition :=
    TablePair.keeps_iff (p := p.tablePair t u) (hm.after.constraints _ ht.new)
  have hkept : ∀ {c : Constraint}, (p.tablePair t u).kept c = true ↔ ∃ k ∈ t.constraints,
      k.name.name = c.name.name ∧ c.definition = k.definition := TablePair.kept_iff
  cases hs with
  | column hs => exact hm.exists_change ht hs
  | @dropIndex c hc hindex hgone =>
      obtain ⟨isUnique, columns, hrule⟩ := Constraint.exists_of_isIndex hindex
      have he : c.indexEntryOf? t.name.identity =
          some (c.name.name, .inline t.name.identity isUnique columns) := by
        simp [Constraint.indexEntryOf?, hrule]
      refine hm.exists_dropIndex ht.old (List.mem_filterMap.mpr ⟨c, hc, he⟩)
        (fun y hy hentry => ?_) fun s hs => ?_
      · exact Bool.false_ne_true
          (hgone.symm.trans (hkeeps.mpr (hm.exists_new_constraint ht he hc hy hentry)))
      · rw [IndexState.inline, ht.name]
        exact hm.ne_dropTable ht s hs
  | dropConstraint hc hindex hgone =>
      refine hm.exists_dropConstraint ht hc hindex fun k hk _ hname hdefinition => ?_
      exact Bool.false_ne_true (hgone.symm.trans (hkeeps.mpr ⟨k, hk, hname, hdefinition⟩))
  | @createIndex c isUnique columns hc hrule hfresh =>
      have he : c.indexEntryOf? u.name.identity =
          some (c.name.name, .inline u.name.identity isUnique columns) := by
        simp [Constraint.indexEntryOf?, hrule]
      refine hm.exists_createIndex ht.new (List.mem_filterMap.mpr ⟨c, hc, he⟩)
        (fun x hx hentry => ?_) fun u' hu' => ⟨t, ht.old, ?_⟩
      · exact Bool.false_ne_true
          (hfresh.symm.trans (hkept.mpr (hm.exists_old_constraint ht he hc hx hentry)))
      · rw [← SchemaObject.table.inj hu', ht.name]
  | @addConstraint c notValid hc hindex hfresh =>
      have haim : (Statement.alterTable u.name (.addConstraint c notValid)).aim =
          .addConstraint u.name.identity c.name.name := by
        simp [Statement.aim, TableChange.aim, hindex]
      change ∃ x ∈ m, x.aim = (Statement.alterTable u.name (.addConstraint c notValid)).aim
      rw [haim]
      refine hm.exists_addConstraint ht hc hindex fun k hk _ hname hdefinition => ?_
      exact Bool.false_ne_true
        (hfresh.symm.trans (hkept.mpr ⟨k, hk, hname, hdefinition.symm⟩))

end Inline

end Needed

end SchemaPair

-- The statement drops an index of a table that is dropped as well.
def GoesWithTable (before m : Script) : Statement → Prop
  | .dropIndex _ name _ => ∃ index ifExists table,
      (Catalog.ofScript before).indexes name.identity = some index ∧
        table.identity = index.table ∧ .dropTable ifExists table ∈ m
  | _ => False

theorem GoesWithTable.mono {before m m' : Script} {s : Statement} (hsub : ∀ x ∈ m, x ∈ m')
    (h : GoesWithTable before m s) : GoesWithTable before m' s := by
  cases s with
  | dropIndex ifExists name onTable =>
      obtain ⟨index, hif, table, hindex, htable, hmem⟩ := h
      exact ⟨index, hif, table, hindex, htable, hsub _ hmem⟩
  | _ => exact h

-- Whatever leads from the old schema to the new one has a statement of that aim.
theorem SchemaPair.Reaches.exists_same_aim {p : SchemaPair} {m : Script} (hm : p.Reaches m)
    {s : Statement} (hs : p.Reason s) (hgoes : ¬GoesWithTable p.before m s) :
    ∃ x ∈ m, x.aim = s.aim := by
  cases hs with
  | dropTable ht hgone => exact hm.exists_dropTable ht hgone
  | @dropIndex i onTable hi hgone =>
      refine hm.exists_of_dropIndex hi hgone fun x hx haim => hgoes ?_
      have hstate : (Catalog.ofScript p.before).indexes i.name.identity = some (.of i) :=
        (Catalog.indexes_eq_some hm.before).mpr ⟨_, hi, List.mem_singleton.mpr rfl⟩
      cases hm.reason x hx with
      | dropTable => exact ⟨_, _, _, hstate, Aim.dropTable.inj haim, hx⟩
      | alter ht hu hname hx => exact absurd haim (hx.aim_ne rfl)
      | _ => cases haim
  | createTable hu hfresh => exact hm.exists_createTable hu hfresh
  | createIndex hi hfresh => exact hm.exists_of_createIndex hi hfresh
  | alter ht hu hname hs => exact hm.exists_of_reason ⟨ht, hu, hname⟩ hs

-- No statement of a migration can be left out, unless it drops an index that goes with its table.
theorem diff_minimal {d : Dialect} {before after m : Script} (hbefore : IsSchema d before)
    (hafter : IsSchema d after) (hcompatible : Compatible (objects before) (objects after))
    (h : diff d .default (some before) (some after) = .ok m) {pre post : Script} {s : Statement}
    (hm : m = pre ++ s :: post) (hs : ¬GoesWithTable before m s) :
    Catalog.run (pre ++ post) (Catalog.ofScript before) ≠ some (Catalog.ofScript after) := by
  obtain ⟨hrefusal, hsteps, -⟩ := diff_some_eq_ok h
  have hnamed : SchemaPair.Named ⟨d, .default, before, after⟩ :=
    ⟨rfl, ⟨hbefore.orderly.tables, hbefore.orderly.indexes, hbefore.orderly.constraints⟩,
      ⟨hafter.orderly.tables, hafter.orderly.indexes, hafter.orderly.constraints⟩, hrefusal⟩
  have hreason : ∀ x ∈ pre ++ s :: post, SchemaPair.Reason ⟨d, .default, before, after⟩ x := by
    rw [← hm, ← hsteps]
    exact hnamed.reason_steps
  have haims : ((pre ++ s :: post).map Statement.aim).Nodup := by
    rw [← hm, ← hsteps]
    exact SchemaPair.Named.nodup_aims_steps hnamed hbefore.orderly.columns hafter.orderly.columns
  have hsub : ∀ x ∈ pre ++ post, x ∈ pre ++ s :: post := by
    intro x hx
    rcases List.mem_append.mp hx with hx | hx <;> simp [hx]
  intro hrun
  have hreaches : SchemaPair.Reaches ⟨d, .default, before, after⟩ (pre ++ post) :=
    ⟨hnamed, hbefore.orderly, hafter.orderly, hcompatible, fun x hx => hreason x (hsub x hx), hrun⟩
  obtain ⟨x, hx, haim⟩ := hreaches.exists_same_aim (hreason s (by simp))
    fun hgoes => hs (hm ▸ hgoes.mono hsub)
  rw [List.map_append, List.map_cons, List.nodup_middle, ← List.map_append, List.nodup_cons] at haims
  exact haims.1 (haim ▸ List.mem_map_of_mem hx)

theorem diff_minimal_items : ∃ m, diff .mysql .default (some Script.items) (some namedItems) = .ok m ∧
    m.length = 7 ∧ ∀ pre s post, m = pre ++ s :: post →
      Catalog.run (pre ++ post) (Catalog.ofScript Script.items) ≠
        some (Catalog.ofScript namedItems) := by
  have hsteps : ((diff .mysql .default (some Script.items) (some namedItems)).toOption.map fun m =>
      (m.length, m.all fun s => s matches .alterTable .. | .createIndex _ | .dropIndex ..)) =
        some (7, true) := by
    decide +kernel
  cases h : diff .mysql .default (some Script.items) (some namedItems) with
  | error e => simp [h, Except.toOption] at hsteps
  | ok m =>
      simp only [h, Except.toOption, Option.map_some, Option.some.injEq, Prod.mk.injEq] at hsteps
      refine ⟨m, rfl, hsteps.1, fun pre s post hm => ?_⟩
      refine diff_minimal isSchema_items isSchema_namedItems (by decide +kernel) h hm fun hgoes => ?_
      cases s with
      | dropIndex ifExists name onTable =>
          obtain ⟨index, hif, table, -, -, hmem⟩ := hgoes
          have hkind := List.all_eq_true.mp hsteps.2 _ hmem
          simp at hkind
      | _ => exact hgoes

end Migration

end SchemaDiff
