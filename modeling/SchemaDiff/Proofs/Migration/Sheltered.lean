import SchemaDiff.Proofs.Links
import SchemaDiff.Proofs.Migration.Passes

namespace SchemaDiff.Migration

open SchemaObject Links

namespace SchemaObject

def foreignKeys : SchemaObject → List ForeignKey
  | table t => t.foreignKeys
  | index _ => []

theorem tableName?_of_mem_foreignKeys {o : SchemaObject} {k : ForeignKey}
    (h : k ∈ o.foreignKeys) : o.tableName? = some k.table := by
  cases o with
  | table t => exact congrArg some (CreateTable.table_of_mem_foreignKeys h).symm
  | index i => cases h

end SchemaObject

-- A schema in which a foreign key refers to its own table or to an earlier one.
structure Grounded (s : Script) : Prop where
  tables : (tableNames s).Nodup
  placed : ∀ n < (objects s).length, ∀ k ∈ (objects s)[n]?.elim [] foreignKeys,
    k.target = k.table ∨ k.target ∈ ((objects s).take n).filterMap tableName?

instance (s : Script) : Decidable (Grounded s) :=
  decidable_of_iff ((tableNames s).Nodup ∧
    ∀ n < (objects s).length, ∀ k ∈ (objects s)[n]?.elim [] foreignKeys,
      k.target = k.table ∨ k.target ∈ ((objects s).take n).filterMap tableName?)
    ⟨fun ⟨h₁, h₂⟩ => ⟨h₁, h₂⟩, fun h => ⟨h.tables, h.placed⟩⟩

-- A table that stays refers to tables that stay.
def Sheltered (before after : Script) : Prop :=
  ∀ o ∈ objects before, ∀ k ∈ o.foreignKeys,
    k.table ∈ tableNames after → k.target ∈ tableNames after

instance (before after : Script) : Decidable (Sheltered before after) :=
  inferInstanceAs (Decidable (∀ o ∈ objects before, ∀ k ∈ o.foreignKeys,
    k.table ∈ tableNames after → k.target ∈ tableNames after))

section Links

variable {os : List SchemaObject} {l : Links}

-- Tables with names of their own bring in their foreign keys.
theorem mem_keys_statements (ht : (os.filterMap tableName?).Nodup)
    (hl : ∀ name ∈ os.filterMap tableName?, name ∉ l.tables) {k : ForeignKey} :
    k ∈ (watch.execAll l (os.map statement)).keys ↔ k ∈ l.keys ∨ ∃ o ∈ os, k ∈ o.foreignKeys := by
  induction os generalizing l with
  | nil => simp [Watch.execAll]
  | cons o os ih =>
      rw [List.map_cons, Watch.execAll_cons]
      cases o with
      | index i =>
          have hexec : watch.exec l (SchemaObject.index i).statement = l := rfl
          rw [hexec, ih ht hl]
          simp [foreignKeys]
      | table t =>
          have hcons : (SchemaObject.table t :: os).filterMap tableName? =
              t.name.identity :: os.filterMap tableName? := List.filterMap_cons_some rfl
          rw [hcons] at ht hl
          have hnew := hl t.name.identity (by simp)
          have hexec : watch.exec l (SchemaObject.table t).statement =
              ⟨l.tables ++ [t.name.identity], l.keys ++ t.foreignKeys⟩ := if_neg hnew
          rw [hexec, ih (List.nodup_cons.mp ht).2]
          · simp [foreignKeys, or_assoc]
          · intro name hname hm
            rcases List.mem_append.mp hm with hm | hm
            · exact hl name (by simp [hname]) hm
            · rw [List.mem_singleton.mp hm] at hname
              exact (List.nodup_cons.mp ht).1 hname

-- A foreign key goes with its table only.
theorem mem_keys_drops (d : Dialect) (onTable : ObjectName → ObjectName) {k : ForeignKey} :
    k ∈ (watch.execAll l (os.map (dropStatement d onTable))).keys ↔
      k ∈ l.keys ∧ k.table ∉ os.filterMap tableName? := by
  induction os generalizing l with
  | nil => simp [Watch.execAll]
  | cons o os ih =>
      rw [List.map_cons, Watch.execAll_cons, ih]
      cases o with
      | index i => rfl
      | table t =>
          have hcons : (SchemaObject.table t :: os).filterMap tableName? =
              t.name.identity :: os.filterMap tableName? := List.filterMap_cons_some rfl
          rw [hcons]
          simp [watch, Links.exec, dropStatement, and_assoc]

-- When a table is dropped, the foreign keys to it are those of tables that are not dropped yet.
theorem follows_drops (d : Dialect) (onTable : ObjectName → ObjectName) :
    watch.Follows l (os.map (dropStatement d onTable)) ↔
      ∀ pre t post, os = pre ++ .table t :: post → ∀ k ∈ l.keys,
        k.table ∉ pre.filterMap tableName? → k.target = t.name.identity →
          k.table = t.name.identity := by
  rw [Watch.follows_iff]
  constructor
  · rintro h pre t post rfl k hk hkept
    have hadmits := h (pre.map (dropStatement d onTable)) _ (post.map (dropStatement d onTable))
      (by rw [List.map_append, List.map_cons])
    exact hadmits k ((mem_keys_drops d onTable).mpr ⟨hk, hkept⟩)
  · intro h pre s post hos
    obtain ⟨pre, rest, rfl, rfl, hrest⟩ := List.map_eq_append_iff.mp hos
    obtain ⟨o, post, rfl, rfl, -⟩ := List.map_eq_cons_iff.mp hrest
    cases o with
    | index i => exact trivial
    | table t =>
        intro k hk
        obtain ⟨hk, hkept⟩ := (mem_keys_drops d onTable).mp hk
        exact h pre t post rfl k hk hkept

end Links

namespace Grounded

variable {s : Script}

-- A table does not refer to a later one.
theorem pairwise (h : Grounded s) : (objects s).Pairwise fun earlier later =>
    ∀ k ∈ earlier.foreignKeys, later.tableName? = some k.target → k.table = k.target := by
  have hnames := List.pairwise_iff_getElem.mp (List.pairwise_filterMap.mp h.tables)
  refine List.pairwise_iff_getElem.mpr fun i j hi hj hij k hk hname => ?_
  have hplaced := h.placed i hi k (by simpa [List.getElem?_eq_getElem hi] using hk)
  rcases hplaced with hown | hearlier
  · exact hown.symm
  · obtain ⟨o, ho, htarget⟩ := List.mem_filterMap.mp hearlier
    obtain ⟨n, hn, rfl⟩ := List.mem_take_iff_getElem.mp ho
    have hnj : n < j := by omega
    exact absurd rfl (hnames n j (by omega) hj hnj _ htarget _ hname)

theorem exists_target (h : Grounded s) {o : SchemaObject} (ho : o ∈ objects s) {k : ForeignKey}
    (hk : k ∈ o.foreignKeys) : ∃ t, .table t ∈ objects s ∧ t.name.identity = k.target := by
  obtain ⟨n, hn, rfl⟩ := List.mem_iff_getElem.mp ho
  have hname : k.target ∈ tableNames s := by
    rcases h.placed n hn k (by simpa [List.getElem?_eq_getElem hn] using hk) with hown | hearlier
    · rw [hown]
      exact List.mem_filterMap.mpr ⟨_, ho, tableName?_of_mem_foreignKeys hk⟩
    · exact ((List.take_sublist _ _).filterMap _).subset hearlier
  exact mem_tableNames.mp hname

-- Of the old tables those are dropped that have no new version. In the reverse order of the schema
-- the dropped tables that refer to a table are gone before it, those that stay are not.
theorem follows_drops_iff {before after : Script} (h : Grounded before)
    (hbefore : (objects before).map statement = before) {dropped : SchemaObject → Bool}
    (hdropped : ∀ t, dropped (.table t) = true ↔ t.name.identity ∉ tableNames after)
    (d : Dialect) (onTable : ObjectName → ObjectName) :
    watch.Follows (.of before)
        (((objects before).reverse.filter dropped).map (dropStatement d onTable)) ↔
      Sheltered before after := by
  have hkeys : ∀ {k : ForeignKey}, k ∈ (Links.of before).keys ↔
      ∃ o ∈ objects before, k ∈ o.foreignKeys := by
    intro k
    have hmem := mem_keys_statements (l := .empty) h.tables (by simp [empty]) (k := k)
    rw [hbefore] at hmem
    simpa [Links.of, empty] using hmem
  have hmem : ∀ {o : SchemaObject}, o ∈ (objects before).reverse.filter dropped ↔
      o ∈ objects before ∧ dropped o = true := by
    simp
  rw [follows_drops]
  constructor
  · intro hall o ho k hk hstays
    by_contra htarget
    obtain ⟨t, ht, hname⟩ := h.exists_target ho hk
    have hd : dropped (.table t) = true := (hdropped t).mpr (hname ▸ htarget)
    obtain ⟨pre, post, hsplit⟩ := List.append_of_mem (hmem.mpr ⟨ht, hd⟩)
    have hkept : k.table ∉ pre.filterMap tableName? := by
      intro hm
      obtain ⟨t', hx, hname'⟩ := mem_filterMap_tableName?.mp hm
      have hd' : dropped (.table t') = true := (hmem.mp (hsplit ▸ List.mem_append_left _ hx)).2
      exact (hdropped t').mp hd' (hname' ▸ hstays)
    have hsame := hall pre t post hsplit k (hkeys.mpr ⟨o, ho, hk⟩) hkept hname.symm
    exact htarget (hname ▸ hsame ▸ hstays)
  · intro hsheltered pre t post hsplit k hk hkept htarget
    obtain ⟨o, ho, hko⟩ := hkeys.mp hk
    have hname := tableName?_of_mem_foreignKeys hko
    have ht : dropped (.table t) = true := (hmem.mp (hsplit ▸ by simp)).2
    have hod : dropped o = true := by
      cases o with
      | index i => cases hname
      | table t' =>
          refine (hdropped t').mpr fun hstays => (hdropped t).mp ht ?_
          rw [← htarget]
          exact hsheltered _ ho k hko (Option.some.inj hname ▸ hstays)
    -- The table with the foreign key is not gone yet, hence stands in front of the other.
    have hpost : o = .table t ∨ o ∈ post := by
      have hm : o ∈ pre ++ .table t :: post := hsplit ▸ hmem.mpr ⟨ho, hod⟩
      rcases List.mem_append.mp hm with hpre | hrest
      · exact absurd (List.mem_filterMap.mpr ⟨o, hpre, hname⟩) hkept
      · exact List.mem_cons.mp hrest
    rcases hpost with rfl | hpost
    · exact (Option.some.inj hname).symm
    · have hpairs := (List.pairwise_reverse.mpr h.pairwise).filter dropped
      rw [hsplit, List.pairwise_append, List.pairwise_cons] at hpairs
      exact (hpairs.2.1.1 o hpost k hko (congrArg some htarget.symm)).trans htarget

end Grounded

-- No table is dropped while another one refers to it, exactly if all tables that stay refer to
-- tables that stay: their foreign keys are dropped behind all tables. If everything is dropped, no
-- table stays.
theorem diff_unreferenced_iff {d : Dialect} {before m : Script} {after : Option Script}
    (hbefore : Grounded before) (h : diff d .default (some before) after = .ok m) :
    Links.watch.Follows (.of before) m ↔ Sheltered before (after.getD []) := by
  cases after with
  | none =>
      obtain ⟨hrefusal, rfl, -⟩ := diff_eq_ok h
      have hobjects : Step.refusal? (objectRefusals before.reverse) = none :=
        Step.refusal?_eq_none_of_mem hrefusal fun step hs => by simp [steps, dropAll, hs]
      have hreverse : (objects before).map statement = before := by
        have hmap := congrArg List.reverse (map_statement_of_refusal? hobjects)
        rwa [objects, List.filterMap_reverse, List.map_reverse, List.reverse_reverse,
          List.reverse_reverse] at hmap
      have hdrops : Links.watch.Follows (.of before) (((objects before).reverse.filter
          fun _ => true).map (dropStatement d id)) ↔ Sheltered before [] :=
        hbefore.follows_drops_iff hreverse (by simp [tableNames, objects]) d id
      rw [List.filter_eq_self.mpr (by simp)] at hdrops
      simp only [steps, statements_dropAll]
      exact hdrops
  | some after =>
      obtain ⟨hrefusal, rfl, -⟩ := diff_some_eq_ok h
      obtain ⟨hobjects, -, -⟩ := SchemaPair.refusal?_of_steps hrefusal
      rw [SchemaPair.statements_steps_of_default rfl, SchemaPair.statements_drops rfl,
        Watch.follows_append]
      have hrest : ∀ l, Links.watch.Follows l (Step.statements
          (SchemaPair.creates ⟨d, .default, before, after⟩) ++
            Step.statements (SchemaPair.alters ⟨d, .default, before, after⟩)) := by
        refine fun l => Watch.follows_of_forall fun s hs l => ?_
        cases s with
        | dropTable ifExists name => exact absurd rfl (SchemaPair.not_dropTable_of_mem hs _ _)
        | _ => trivial
      rw [and_iff_left (hrest _)]
      exact hbefore.follows_drops_iff (map_statement_of_refusal? hobjects)
        (fun t => SchemaPair.isDropped_table rfl t) d id

-- Customers, and the orders that they placed.
def customers : Statement :=
  .createTable ⟨false, .ofIdent (.bare "customers"),
    [⟨.bare "id", ⟨"INT", [], [], 0⟩, true, none, false⟩],
    [⟨.bare "customers_pkey", .primaryKey [.ascending (.bare "id")]⟩], []⟩

def orders (references : List Constraint) : Statement :=
  .createTable ⟨false, .ofIdent (.bare "orders"),
    [⟨.bare "customer", ⟨"INT", [], [], 0⟩, false, none, false⟩], references, []⟩

def toCustomers : Constraint :=
  ⟨.bare "orders_customer_fkey", .foreignKey [.ascending (.bare "customer")]
    ⟨.ofIdent (.bare "customers"), [.ascending (.bare "id")], none, none⟩⟩

-- Both tables go, the one with the foreign key first.
theorem diff_unreferenced_orders : ∃ m,
    diff .postgres .default (some [customers, orders [toCustomers]]) none = .ok m ∧ m.length = 2 ∧
    Links.watch.Follows (.of [customers, orders [toCustomers]]) m := by
  have hlength : (diff .postgres .default (some [customers, orders [toCustomers]])
      none).toOption.map List.length = some 2 := by
    decide +kernel
  cases h : diff .postgres .default (some [customers, orders [toCustomers]]) none with
  | error e => simp [h, Except.toOption] at hlength
  | ok m =>
      have hgrounded : Grounded [customers, orders [toCustomers]] := by decide
      exact ⟨m, rfl, by simpa [h, Except.toOption] using hlength,
        (diff_unreferenced_iff hgrounded h).mpr (by decide)⟩

-- The orders stay without their foreign key. It is dropped behind the table that it refers to.
theorem not_unreferenced_orders : ∃ m,
    Script.parse .postgres "CREATE TABLE customers (id INT PRIMARY KEY);
      CREATE TABLE orders (customer INT REFERENCES customers (id));" =
        .ok [customers, orders [toCustomers]] ∧
    Script.parse .postgres "CREATE TABLE orders (customer INT);" = .ok [orders []] ∧
    Grounded [customers, orders [toCustomers]] ∧
    diff .postgres .default (some [customers, orders [toCustomers]]) (some [orders []]) = .ok m ∧
    ¬Links.watch.Follows (.of [customers, orders [toCustomers]]) m := by
  have hdiff : diff .postgres .default (some [customers, orders [toCustomers]])
      (some [orders []]) = .ok [.dropTable false (.ofIdent (.bare "customers")),
        .alterTable (.ofIdent (.bare "orders")) (.dropConstraint (.bare "orders_customer_fkey"))] := by
    decide +kernel
  refine ⟨_, by decide +kernel, by decide +kernel, by decide, hdiff, fun h => ?_⟩
  have hadmits := h.1 ⟨"orders", "orders_customer_fkey", "customers"⟩ (by decide) rfl
  exact absurd hadmits (by decide)

end SchemaDiff.Migration
