import SchemaDiff.Proofs.Catalog.Objects

namespace SchemaDiff

-- What a statement is to bring about. A constraint that is an index counts as one.
inductive Aim
  | rename
  | createTable (table : String)
  | dropTable (table : String)
  | createIndex (name : String)
  | dropIndex (name : String)
  | addColumn (table column : String)
  | dropColumn (table column : String)
  | setDataType (table column : String)
  | setDefault (table column : String)
  | setNull (table column : String)
  | modifyColumn (table column : String)
  | addConstraint (table name : String)
  | dropConstraint (table name : String)
deriving DecidableEq

def ColumnChange.aim (table column : String) : ColumnChange → Aim
  | .setDataType _ => .setDataType table column
  | .setDefault _ | .dropDefault => .setDefault table column
  | .setNotNull | .dropNotNull => .setNull table column

@[simp] theorem ColumnChange.aim_dataType (table column : String) (dataType : DataType) :
    (ColumnChange.setDataType dataType).aim table column = .setDataType table column := rfl

@[simp] theorem ColumnChange.aim_default (table column : String) (value : Option Expr) :
    (value.elim .dropDefault .setDefault : ColumnChange).aim table column =
      .setDefault table column := by
  cases value <;> rfl

@[simp] theorem ColumnChange.aim_null (table column : String) (notNull : Bool) :
    (if notNull then .setNotNull else .dropNotNull : ColumnChange).aim table column =
      .setNull table column := by
  cases notNull <;> rfl

def TableChange.aim (table : String) : TableChange → Aim
  | .renameTable _ | .renameColumn _ _ | .renameConstraint _ _ => .rename
  | .addColumn column => .addColumn table column.name.name
  | .dropColumn name => .dropColumn table name.name
  | .alterColumn name change => change.aim table name.name
  | .modifyColumn column => .modifyColumn table column.name.name
  | .addConstraint c _ =>
      if c.isIndex then .createIndex c.name.name else .addConstraint table c.name.name
  | .dropConstraint name => .dropConstraint table name.name

def Statement.aim : Statement → Aim
  | .createTable t => .createTable t.name.identity
  | .dropTable _ name => .dropTable name.identity
  | .alterTable name change => change.aim name.identity
  | .createIndex i => .createIndex i.name.identity
  | .dropIndex _ name _ => .dropIndex name.identity

namespace Store

variable {β : Type} {s s' : Store β} {name : String}

theorem add_eq_some {value : β} :
    s.add name value = some s' ↔ s name = none ∧ s' = Function.update s name (some value) := by
  unfold add
  split
  · rename_i h
    exact iff_of_false (by simp) fun hn => by simp [hn.1] at h
  · rename_i h
    simp only [Option.not_isSome_iff_eq_none] at h
    rw [Option.some.injEq, eq_comm, iff_and_self]
    exact fun _ => h

theorem remove_eq_some : s.remove name = some s' ↔
    (s name).isSome = true ∧ s' = Function.update s name none := by
  unfold remove
  split
  · rename_i h
    exact iff_of_false (by simp) fun hn => by simp_all
  · rename_i h
    rw [Option.some.injEq, eq_comm, iff_and_self]
    exact fun _ => by simpa [Option.isSome_iff_ne_none] using h

theorem change_eq_some {f : β → Option β} : s.change name f = some s' ↔
    ∃ value value', s name = some value ∧ f value = some value' ∧
      s' = Function.update s name (some value') := by
  simp only [change, Option.bind_eq_some_iff, Option.map_eq_some_iff]
  constructor
  · rintro ⟨value, hvalue, value', hvalue', rfl⟩
    exact ⟨value, value', hvalue, hvalue', rfl⟩
  · rintro ⟨value, value', hvalue, hvalue', rfl⟩
    exact ⟨value, hvalue, value', hvalue', rfl⟩

end Store

-- What no step of a fold changes is there at the end.
theorem foldlM_keeps {α σ : Type} {f : σ → α → Option σ} {P : σ → Prop} {xs : List α} {c c' : σ}
    (h : ∀ x ∈ xs, ∀ c c', f c x = some c' → P c → P c') (hfold : xs.foldlM f c = some c')
    (hc : P c) : P c' := by
  induction xs generalizing c with
  | nil => exact Option.some.inj hfold ▸ hc
  | cons x xs ih =>
      rw [List.foldlM_cons] at hfold
      obtain ⟨c₁, hstep, hrest⟩ := Option.bind_eq_some_iff.mp hfold
      exact ih (fun y hy => h y (by simp [hy])) hrest (h x (by simp) c c₁ hstep hc)

namespace Catalog

variable {c c' : Catalog} {s : Statement} {table name : String}

theorem onTable_eq_some {f : TableState → Option TableState} : c.onTable table f = some c' ↔
    ∃ t t', c.tables table = some t ∧ f t = some t' ∧
      c' = ⟨Function.update c.tables table (some t'), c.indexes⟩ := by
  simp only [onTable, Option.map_eq_some_iff, Store.change_eq_some]
  constructor
  · rintro ⟨tables, ⟨t, t', ht, hf, rfl⟩, rfl⟩
    exact ⟨t, t', ht, hf, rfl⟩
  · rintro ⟨t, t', ht, hf, rfl⟩
    exact ⟨_, ⟨t, t', ht, hf, rfl⟩, rfl⟩

theorem addIndex_eq_some {index : IndexState} : c.addIndex name index = some c' ↔
    (c.tables index.table).isSome = true ∧ c.indexes name = none ∧
      c' = ⟨c.tables, Function.update c.indexes name (some index)⟩ := by
  unfold addIndex
  split
  · rename_i h
    exact iff_of_false (by simp) fun hn => by simp_all
  · rename_i h
    simp only [Option.map_eq_some_iff, Store.add_eq_some]
    constructor
    · rintro ⟨indexes, ⟨hfree, rfl⟩, rfl⟩
      exact ⟨by simpa [Option.isSome_iff_ne_none] using h, hfree, rfl⟩
    · rintro ⟨-, hfree, rfl⟩
      exact ⟨_, ⟨hfree, rfl⟩, rfl⟩

-- What a change that renames nothing does to its table.
inductive Alters : TableChange → TableState → TableState → Prop
  | addColumn {t : TableState} {column : Column} (hfree : t.columns column.name.name = none) :
      Alters (.addColumn column) t
        { t with columns := Function.update t.columns column.name.name (some (.of column)) }
  | dropColumn {t : TableState} {name : Ident} :
      Alters (.dropColumn name) t { t with columns := Function.update t.columns name.name none }
  | alterColumn {t : TableState} {name : Ident} {change : ColumnChange} {column : ColumnState}
      (hthere : t.columns name.name = some column) :
      Alters (.alterColumn name change) t
        { t with columns := Function.update t.columns name.name (some (column.change change)) }
  | modifyColumn {t : TableState} {column : Column}
      (hthere : (t.columns column.name.name).isSome = true) :
      Alters (.modifyColumn column) t
        { t with columns := Function.update t.columns column.name.name (some (.of column)) }
  | addConstraint {t : TableState} {k : Constraint} {notValid : Bool}
      (hindex : k.isIndex = false) (hfree : t.constraints k.name.name = none) :
      Alters (.addConstraint k notValid) t
        { t with constraints := Function.update t.constraints k.name.name (some k.definition) }
  | dropConstraint {t : TableState} {name : Ident} :
      Alters (.dropConstraint name) t
        { t with constraints := Function.update t.constraints name.name none }

theorem onColumns_eq_some {t t' : TableState} {f : Store ColumnState → Option (Store ColumnState)} :
    t.onColumns f = some t' ↔ ∃ columns, f t.columns = some columns ∧ t' = { t with columns } := by
  rw [TableState.onColumns, Option.map_eq_some_iff]
  exact exists_congr fun columns => and_congr_right fun _ => eq_comm

theorem onConstraints_eq_some {t t' : TableState} {f : Store String → Option (Store String)} :
    t.onConstraints f = some t' ↔
      ∃ constraints, f t.constraints = some constraints ∧ t' = { t with constraints } := by
  rw [TableState.onConstraints, Option.map_eq_some_iff]
  exact exists_congr fun constraints => and_congr_right fun _ => eq_comm

-- A change that renames nothing is one of the table, or brings in an index.
theorem alterTable_cases {change : TableChange} (h : c.alterTable table change = some c')
    (hrename : change.aim table ≠ .rename) :
    (∃ t t', c.tables table = some t ∧ Alters change t t' ∧
      c' = ⟨Function.update c.tables table (some t'), c.indexes⟩) ∨
    ∃ k notValid index, change = .addConstraint k notValid ∧ k.isIndex = true ∧
      c.addIndex k.name.name index = some c' := by
  cases change with
  | renameTable new => exact absurd rfl hrename
  | renameColumn old new => exact absurd rfl hrename
  | renameConstraint old new => exact absurd rfl hrename
  | addColumn column =>
      obtain ⟨t, t', ht, hcolumns, rfl⟩ := onTable_eq_some.mp h
      obtain ⟨columns, hadd, rfl⟩ := onColumns_eq_some.mp hcolumns
      obtain ⟨hfree, rfl⟩ := Store.add_eq_some.mp hadd
      exact .inl ⟨t, _, ht, .addColumn hfree, rfl⟩
  | dropColumn name =>
      obtain ⟨t, t', ht, hcolumns, rfl⟩ := onTable_eq_some.mp h
      obtain ⟨columns, hremove, rfl⟩ := onColumns_eq_some.mp hcolumns
      obtain ⟨-, rfl⟩ := Store.remove_eq_some.mp hremove
      exact .inl ⟨t, _, ht, .dropColumn, rfl⟩
  | alterColumn name change =>
      obtain ⟨t, t', ht, hcolumns, rfl⟩ := onTable_eq_some.mp h
      obtain ⟨columns, hchange, rfl⟩ := onColumns_eq_some.mp hcolumns
      obtain ⟨column, column', hthere, hcolumn, rfl⟩ := Store.change_eq_some.mp hchange
      cases hcolumn
      exact .inl ⟨t, _, ht, .alterColumn hthere, rfl⟩
  | modifyColumn column =>
      obtain ⟨t, t', ht, hcolumns, rfl⟩ := onTable_eq_some.mp h
      obtain ⟨columns, hchange, rfl⟩ := onColumns_eq_some.mp hcolumns
      obtain ⟨old, column', hthere, hcolumn, rfl⟩ := Store.change_eq_some.mp hchange
      cases hcolumn
      exact .inl ⟨t, _, ht, .modifyColumn (by rw [hthere]; rfl), rfl⟩
  | addConstraint k notValid =>
      by_cases hindex : k.isIndex = true
      · obtain ⟨isUnique, columns, hrule⟩ := Constraint.exists_of_isIndex hindex
        refine .inr ⟨k, notValid, .inline table isUnique columns, rfl, hindex, ?_⟩
        simpa [alterTable, addConstraint, hrule] using h
      · have hadd : c.onTable table (·.onConstraints (·.add k.name.name k.definition)) = some c' := by
          cases hrule : k.rule with
          | index isUnique columns => simp [Constraint.isIndex, hrule, Rule.isIndex] at hindex
          | _ => simpa [alterTable, addConstraint, hrule] using h
        obtain ⟨t, t', ht, hconstraints, rfl⟩ := onTable_eq_some.mp hadd
        obtain ⟨constraints, hstore, rfl⟩ := onConstraints_eq_some.mp hconstraints
        obtain ⟨hfree, rfl⟩ := Store.add_eq_some.mp hstore
        exact .inl ⟨t, _, ht, .addConstraint (by simpa using hindex) hfree, rfl⟩
  | dropConstraint name =>
      obtain ⟨t, t', ht, hconstraints, rfl⟩ := onTable_eq_some.mp h
      obtain ⟨constraints, hremove, rfl⟩ := onConstraints_eq_some.mp hconstraints
      obtain ⟨-, rfl⟩ := Store.remove_eq_some.mp hremove
      exact .inl ⟨t, _, ht, .dropConstraint, rfl⟩

-- A new table is there where there was none, with its indexes. All else stays.
theorem createTable_eq_some {t : CreateTable} (h : c.createTable t = some c') :
    c.tables t.name.identity = none ∧ (c'.tables t.name.identity).isSome = true ∧
      (∀ table, table ≠ t.name.identity → c'.tables table = c.tables table) ∧
      (∀ name index, c.indexes name = some index → c'.indexes name = some index) ∧
      ∀ name, name ∉ (Migration.SchemaObject.table t).indexNames →
        c'.indexes name = c.indexes name := by
  simp only [createTable, Option.bind_eq_bind, Option.bind_eq_some_iff] at h
  obtain ⟨tables, hadd, filled, hcolumns, hconstraints⟩ := h
  obtain ⟨hfree, rfl⟩ := Store.add_eq_some.mp hadd
  -- What holds for the table while it is filled.
  let P (c' : Catalog) : Prop := (c'.tables t.name.identity).isSome = true ∧
    (∀ table, table ≠ t.name.identity → c'.tables table = c.tables table) ∧
    (∀ name index, c.indexes name = some index → c'.indexes name = some index) ∧
    ∀ name, name ∉ (Migration.SchemaObject.table t).indexNames → c'.indexes name = c.indexes name
  have hstart : P ⟨Function.update c.tables t.name.identity (some .empty), c.indexes⟩ :=
    ⟨by simp, fun table hne => Function.update_of_ne hne _ _, fun _ _ hi => hi, fun _ _ => rfl⟩
  have htable : ∀ {c₁ c₂ : Catalog} {f : TableState → Option TableState},
      c₁.onTable t.name.identity f = some c₂ → P c₁ → P c₂ := by
    rintro c₁ c₂ f hf ⟨-, hothers, hindexes⟩
    obtain ⟨t₁, t₂, -, -, rfl⟩ := onTable_eq_some.mp hf
    exact ⟨by simp, fun table hne => (Function.update_of_ne hne _ _).trans (hothers table hne),
      hindexes⟩
  have hfilled : P filled :=
    foldlM_keeps (fun column _ c₁ c₂ hstep => htable hstep) hcolumns hstart
  refine ⟨hfree, foldlM_keeps (P := P) (fun k hk c₁ c₂ hstep hc => ?_) hconstraints hfilled⟩
  by_cases hindex : k.isIndex = true
  · obtain ⟨isUnique, columns, hrule⟩ := Constraint.exists_of_isIndex hindex
    simp only [addConstraint, hrule] at hstep
    obtain ⟨-, hnone, rfl⟩ := addIndex_eq_some.mp hstep
    obtain ⟨hsome, hothers, hkeeps, hsame⟩ := hc
    refine ⟨hsome, hothers, fun name index hi => ?_, fun name hname => ?_⟩
    · have hne : name ≠ k.name.name := by
        rintro rfl
        rw [hkeeps _ _ hi] at hnone
        cases hnone
      exact (Function.update_of_ne hne _ _).trans (hkeeps _ _ hi)
    · have hne : name ≠ k.name.name := by
        rintro rfl
        exact hname (Migration.SchemaObject.mem_indexNames_of_isIndex hk hindex)
      exact (Function.update_of_ne hne _ _).trans (hsame name hname)
  · have hon : c₁.onTable t.name.identity (·.onConstraints (·.add k.name.name k.definition)) =
        some c₂ := by
      cases hrule : k.rule with
      | index isUnique columns => simp [Constraint.isIndex, hrule, Rule.isIndex] at hindex
      | _ => simpa [addConstraint, hrule] using hstep
    exact htable hon hc

-- The result of a statement that may do nothing where the object is there, or is not.
theorem ite_some_eq {p : Bool} {x : Option Catalog} (h : (if p then some c else x) = some c') :
    c' = c ∨ p = false ∧ x = some c' := by
  cases p
  · exact .inr ⟨rfl, h⟩
  · exact .inl (Option.some.inj h).symm

-- What a statement that renames nothing can do.
inductive Effect (c : Catalog) : Statement → Catalog → Prop
  | none {s : Statement} : Effect c s c
  | createTable {t : CreateTable} {c' : Catalog} (hfree : c.tables t.name.identity = none)
      (hthere : (c'.tables t.name.identity).isSome = true)
      (hothers : ∀ table, table ≠ t.name.identity → c'.tables table = c.tables table)
      (hkeeps : ∀ name index, c.indexes name = some index → c'.indexes name = some index)
      (hindexes : ∀ name, name ∉ (Migration.SchemaObject.table t).indexNames →
        c'.indexes name = c.indexes name) : Effect c (.createTable t) c'
  | dropTable {ifExists : Bool} {table : ObjectName}
      (hthere : (c.tables table.identity).isSome = true) :
      Effect c (.dropTable ifExists table) ⟨Function.update c.tables table.identity Option.none,
        c.indexes.filter fun i => i.table != table.identity⟩
  | alterTable {table : ObjectName} {change : TableChange} {t t' : TableState}
      (ht : c.tables table.identity = some t) (halters : Alters change t t') :
      Effect c (.alterTable table change)
        ⟨Function.update c.tables table.identity (some t'), c.indexes⟩
  | addIndex {s : Statement} {name : String} {index : IndexState} (haim : s.aim = .createIndex name)
      (hfree : c.indexes name = Option.none) :
      Effect c s ⟨c.tables, Function.update c.indexes name (some index)⟩
  | dropIndex {ifExists : Bool} {index : ObjectName} {table : Option ObjectName}
      (hthere : (c.indexes index.identity).isSome = true) :
      Effect c (.dropIndex ifExists index table)
        ⟨c.tables, Function.update c.indexes index.identity Option.none⟩

theorem effect_of_exec (h : c.exec s = some c') (hrename : s.aim ≠ .rename) : Effect c s c' := by
  cases s with
  | createTable t =>
      rcases ite_some_eq h with rfl | ⟨-, h⟩
      · exact .none
      · obtain ⟨hfree, hthere, hothers, hkeeps, hindexes⟩ := createTable_eq_some h
        exact .createTable hfree hthere hothers hkeeps hindexes
  | dropTable ifExists table =>
      rcases ite_some_eq h with rfl | ⟨-, h⟩
      · exact .none
      · obtain ⟨tables, hremove, rfl⟩ := Option.map_eq_some_iff.mp h
        obtain ⟨hthere, rfl⟩ := Store.remove_eq_some.mp hremove
        exact .dropTable hthere
  | alterTable table change =>
      rcases alterTable_cases h hrename with ⟨t, t', ht, halters, rfl⟩ |
        ⟨k, notValid, index, rfl, hindex, hadd⟩
      · exact .alterTable ht halters
      · obtain ⟨-, hfree, rfl⟩ := addIndex_eq_some.mp hadd
        exact .addIndex (by simp [Statement.aim, TableChange.aim, hindex]) hfree
  | createIndex i =>
      rcases ite_some_eq h with rfl | ⟨-, h⟩
      · exact .none
      · obtain ⟨-, hfree, rfl⟩ := addIndex_eq_some.mp h
        exact .addIndex rfl hfree
  | dropIndex ifExists index table =>
      rcases ite_some_eq h with rfl | ⟨-, h⟩
      · exact .none
      · unfold Catalog.dropIndex at h
        split at h
        · obtain ⟨indexes, hremove, rfl⟩ := Option.map_eq_some_iff.mp h
          obtain ⟨hthere, rfl⟩ := Store.remove_eq_some.mp hremove
          exact .dropIndex hthere
        · cases h

-- What no statement of a run changes is there at the end.
theorem run_keeps {P : Catalog → Prop} {m : Script} (hrename : ∀ s ∈ m, s.aim ≠ .rename)
    (hkeep : ∀ s ∈ m, ∀ c c', Effect c s c' → P c → P c') (hrun : run m c = some c') (hc : P c) :
    P c' :=
  foldlM_keeps (fun s hs _ _ hexec => hkeep s hs _ _ (effect_of_exec hexec (hrename s hs))) hrun hc

def column? (c : Catalog) (table name : String) : Option ColumnState :=
  (c.tables table).bind (·.columns name)

def constraint? (c : Catalog) (table name : String) : Option String :=
  (c.tables table).bind (·.constraints name)

namespace Effect

variable (h : Effect c s c')
include h

-- A table stays as it is, comes, goes, or is changed.
theorem tables_cases (table : String) : c'.tables table = c.tables table ∨
    (s.aim = .createTable table ∧ c.tables table = Option.none) ∨
    (s.aim = .dropTable table ∧ c'.tables table = Option.none) ∨
    ∃ altered change t t', altered.identity = table ∧ s = .alterTable altered change ∧
      c.tables table = some t ∧ Alters change t t' ∧ c'.tables table = some t' := by
  cases h with
  | none | addIndex | dropIndex => exact .inl rfl
  | @createTable t _ hfree hthere hothers hkeeps hindexes =>
      by_cases he : table = t.name.identity
      · subst he
        exact .inr (.inl ⟨rfl, hfree⟩)
      · exact .inl (hothers table he)
  | @dropTable ifExists dropped hthere =>
      by_cases he : table = dropped.identity
      · subst he
        exact .inr (.inr (.inl ⟨rfl, by simp⟩))
      · exact .inl (Function.update_of_ne he _ _)
  | @alterTable altered change t t' ht halters =>
      by_cases he : table = altered.identity
      · subst he
        exact .inr (.inr (.inr ⟨altered, change, t, t', rfl, rfl, ht, halters, by simp⟩))
      · exact .inl (Function.update_of_ne he _ _)

theorem tables_eq_none (haim : s.aim ≠ .createTable table) (hc : c.tables table = Option.none) :
    c'.tables table = Option.none := by
  rcases h.tables_cases table with heq | ⟨hs, -⟩ | ⟨-, hnone⟩ | ⟨_, _, t, _, -, -, ht, -, -⟩
  · rw [heq, hc]
  · exact absurd hs haim
  · exact hnone
  · rw [hc] at ht
    cases ht

theorem tables_isSome (haim : s.aim ≠ .dropTable table) (hc : (c.tables table).isSome = true) :
    (c'.tables table).isSome = true := by
  rcases h.tables_cases table with heq | ⟨-, hnone⟩ | ⟨hs, -⟩ | ⟨_, _, _, t', -, -, -, -, ht'⟩
  · rw [heq, hc]
  · rw [hnone] at hc
    cases hc
  · exact absurd hs haim
  · rw [ht']
    rfl

theorem indexes_ne {index : IndexState} (haim : s.aim ≠ .createIndex name)
    (htable : ∀ t, s = .createTable t → name ∉ (Migration.SchemaObject.table t).indexNames)
    (hc : c.indexes name ≠ some index) : c'.indexes name ≠ some index := by
  cases h with
  | none | alterTable => exact hc
  | @createTable t _ hfree hthere hothers hkeeps hindexes =>
      rwa [hindexes name (htable t rfl)]
  | @dropTable ifExists dropped hthere =>
      intro hi
      exact hc (Option.filter_eq_some_iff.mp hi).1
  | @addIndex _ created state hcreated hfree =>
      have hne : name ≠ created := fun he => haim (he ▸ hcreated)
      simpa [Function.update_of_ne hne] using hc
  | @dropIndex ifExists dropped onTable hthere =>
      by_cases he : name = dropped.identity
      · simp [he]
      · simpa [Function.update_of_ne he] using hc

theorem indexes_eq {index : IndexState} (haim : s.aim ≠ .dropIndex name)
    (htable : s.aim ≠ .dropTable index.table) (hc : c.indexes name = some index) :
    c'.indexes name = some index := by
  cases h with
  | none | alterTable => exact hc
  | @createTable t _ hfree hthere hothers hkeeps hindexes => exact hkeeps name index hc
  | @dropTable ifExists dropped hthere =>
      have hne : index.table ≠ dropped.identity := fun he => htable (by rw [he]; rfl)
      exact Option.filter_eq_some_iff.mpr ⟨hc, by simpa using hne⟩
  | @addIndex _ created state hcreated hfree =>
      have hne : name ≠ created := by
        rintro rfl
        rw [hc] at hfree
        cases hfree
      exact (Function.update_of_ne hne _ _).trans hc
  | @dropIndex ifExists dropped onTable hthere =>
      have hne : name ≠ dropped.identity := fun he => haim (by rw [he]; rfl)
      exact (Function.update_of_ne hne _ _).trans hc

-- A column that is not as it should be, or that is not there.
theorem column?_not {good : ColumnState → Prop} (hcreate : s.aim ≠ .createTable table)
    (hadd : s.aim ≠ .addColumn table name) (hmodify : s.aim ≠ .modifyColumn table name)
    (hchange : ∀ altered column change, s = .alterTable altered (.alterColumn column change) →
      altered.identity = table → column.name = name → ∀ x : ColumnState,
        good (x.change change) → good x)
    (hc : ∀ x ∈ c.column? table name, ¬good x) : ∀ x ∈ c'.column? table name, ¬good x := by
  rcases h.tables_cases table with heq | ⟨hs, -⟩ | ⟨-, hnone⟩ |
    ⟨altered, change, t, t', rfl, rfl, ht, halters, ht'⟩
  · rwa [column?, heq]
  · exact absurd hs hcreate
  · simp [column?, hnone]
  simp only [column?, ht, ht', Option.bind_some] at hc ⊢
  cases halters with
  | addConstraint | dropConstraint => exact hc
  | @addColumn _ column hfree =>
      have hne : name ≠ column.name.name := fun he => hadd (by rw [he]; rfl)
      simpa [Function.update_of_ne hne] using hc
  | @dropColumn _ column =>
      by_cases he : name = column.name
      · simp [he]
      · simpa [Function.update_of_ne he] using hc
  | @alterColumn _ column change old hthere =>
      by_cases he : name = column.name
      · subst he
        intro x hx hgood
        obtain rfl : old.change change = x := by simpa using hx
        exact hc old hthere (hchange _ _ _ rfl rfl rfl old hgood)
      · simpa [Function.update_of_ne he] using hc
  | @modifyColumn _ column hthere =>
      have hne : name ≠ column.name.name := fun he => hmodify (by rw [he]; rfl)
      simpa [Function.update_of_ne hne] using hc

theorem column?_isSome (hdrop : s.aim ≠ .dropTable table) (hcolumn : s.aim ≠ .dropColumn table name)
    (hc : (c.column? table name).isSome = true) : (c'.column? table name).isSome = true := by
  rcases h.tables_cases table with heq | ⟨-, hnone⟩ | ⟨hs, -⟩ |
    ⟨altered, change, t, t', rfl, rfl, ht, halters, ht'⟩
  · rwa [column?, heq]
  · simp [column?, hnone] at hc
  · exact absurd hs hdrop
  simp only [column?, ht, ht', Option.bind_some] at hc ⊢
  have hother : ∀ {key : String} {x : Option ColumnState}, (name = key → x.isSome = true) →
      (Function.update t.columns key x name).isSome = true := by
    intro key x hx
    by_cases he : name = key
    · simpa [he] using hx he
    · rwa [Function.update_of_ne he]
  cases halters with
  | addConstraint | dropConstraint => exact hc
  | addColumn | alterColumn | modifyColumn => exact hother fun _ => rfl
  | @dropColumn _ column => exact hother fun he => absurd (by rw [he]; rfl) hcolumn

theorem constraint?_ne {definition : String} (hcreate : s.aim ≠ .createTable table)
    (hadd : s.aim ≠ .addConstraint table name) (hc : c.constraint? table name ≠ some definition) :
    c'.constraint? table name ≠ some definition := by
  rcases h.tables_cases table with heq | ⟨hs, -⟩ | ⟨-, hnone⟩ |
    ⟨altered, change, t, t', rfl, rfl, ht, halters, ht'⟩
  · rwa [constraint?, heq]
  · exact absurd hs hcreate
  · simp [constraint?, hnone]
  simp only [constraint?, ht, ht', Option.bind_some] at hc ⊢
  cases halters with
  | addColumn | dropColumn | alterColumn | modifyColumn => exact hc
  | @addConstraint _ k notValid hindex hfree =>
      have hne : name ≠ k.name.name := fun he =>
        hadd (by simp [Statement.aim, TableChange.aim, hindex, he])
      simpa [Function.update_of_ne hne] using hc
  | @dropConstraint _ k =>
      by_cases he : name = k.name
      · simp [he]
      · simpa [Function.update_of_ne he] using hc

theorem constraint?_eq {definition : String} (hdrop : s.aim ≠ .dropTable table)
    (hconstraint : s.aim ≠ .dropConstraint table name)
    (hc : c.constraint? table name = some definition) :
    c'.constraint? table name = some definition := by
  rcases h.tables_cases table with heq | ⟨-, hnone⟩ | ⟨hs, -⟩ |
    ⟨altered, change, t, t', rfl, rfl, ht, halters, ht'⟩
  · rwa [constraint?, heq]
  · simp [constraint?, hnone] at hc
  · exact absurd hs hdrop
  simp only [constraint?, ht, ht', Option.bind_some] at hc ⊢
  cases halters with
  | addColumn | dropColumn | alterColumn | modifyColumn => exact hc
  | @addConstraint _ k notValid hindex hfree =>
      have hne : name ≠ k.name.name := by
        rintro rfl
        rw [hc] at hfree
        cases hfree
      simpa [Function.update_of_ne hne] using hc
  | @dropConstraint _ k =>
      have hne : name ≠ k.name := fun he => hconstraint (by rw [he]; rfl)
      simpa [Function.update_of_ne hne] using hc

end Effect

end Catalog

end SchemaDiff
