import Mathlib.Data.List.Pairwise
import SchemaDiff.Proofs.Catalog.Identity
import SchemaDiff.Proofs.Catalog.Objects
import SchemaDiff.Proofs.Migration.TableRun
import SchemaDiff.Proofs.RoundTrip

namespace SchemaDiff.Migration

open SchemaObject

namespace SchemaObject

-- The names that the definitions of indexes are made of.
def indexedNames : SchemaObject → List String
  | table t => t.constraints.flatMap fun c =>
      match c.rule with
      | .index _ columns => columns.map (·.ident.name)
      | _ => []
  | index i => i.name.identity :: i.table.identity ::
      (i.method.toList.map Ident.name ++ i.columns.map (·.ident.name))

def tableName? : SchemaObject → Option String
  | table t => some t.name.identity
  | index _ => none

def columnNames : SchemaObject → List String
  | table t => t.columns.map (·.name.name)
  | index _ => []

def constraintNames : SchemaObject → List String
  | table t => t.constraints.map (·.name.name)
  | index _ => []

-- The table that an index of its own is on.
def indexedTable? : SchemaObject → Option String
  | table _ => none
  | index i => some i.table.identity

theorem map_tableEntryOf? (os : List SchemaObject) :
    (os.filterMap tableEntryOf?).map Prod.fst = os.filterMap tableName? := by
  rw [List.map_filterMap]
  refine List.filterMap_congr fun o _ => ?_
  cases o <;> rfl

-- No index is without columns.
def HasColumns : SchemaObject → Prop
  | table t => ∀ c ∈ t.constraints, ∀ isUnique columns,
      c.rule = .index isUnique columns → columns ≠ []
  | index i => i.columns ≠ []

end SchemaObject

-- Objects that can be created one after the other.
structure Orderly (os : List SchemaObject) : Prop where
  tables : (os.filterMap tableName?).Nodup
  indexes : (os.flatMap indexNames).Nodup
  columns : ∀ o ∈ os, o.columnNames.Nodup
  constraints : ∀ o ∈ os, o.constraintNames.Nodup
  -- An index stands behind its table.
  placed : ∀ n < os.length, ∀ name ∈ os[n]?.bind indexedTable?,
    name ∈ (os.take n).filterMap tableName?
  plain : ∀ o ∈ os, ∀ name ∈ o.indexedNames, Plain name

instance (os : List SchemaObject) : Decidable (Orderly os) :=
  decidable_of_iff ((os.filterMap tableName?).Nodup ∧ (os.flatMap indexNames).Nodup ∧
    (∀ o ∈ os, o.columnNames.Nodup) ∧ (∀ o ∈ os, o.constraintNames.Nodup) ∧
    (∀ n < os.length, ∀ name ∈ os[n]?.bind indexedTable?,
      name ∈ (os.take n).filterMap tableName?) ∧
    ∀ o ∈ os, ∀ name ∈ o.indexedNames, Plain name)
    ⟨fun ⟨h₁, h₂, h₃, h₄, h₅, h₆⟩ => ⟨h₁, h₂, h₃, h₄, h₅, h₆⟩,
      fun h => ⟨h.tables, h.indexes, h.columns, h.constraints, h.placed, h.plain⟩⟩

-- A name is an index of its own in both schemas, or an index of the same table.
def Compatible (before after : List SchemaObject) : Prop :=
  ∀ x ∈ before, ∀ y ∈ after, ∀ name ∈ x.indexNames, name ∈ y.indexNames → x.key = y.key

instance (before after : List SchemaObject) : Decidable (Compatible before after) :=
  inferInstanceAs (Decidable (∀ x ∈ before, ∀ y ∈ after, ∀ name ∈ x.indexNames,
    name ∈ y.indexNames → x.key = y.key))

namespace Orderly

variable {os : List SchemaObject}

theorem keys_nodup_of {os : List SchemaObject} (ht : (os.filterMap tableName?).Nodup)
    (hi : (os.flatMap indexNames).Nodup) : (os.map key).Nodup := by
  induction os with
  | nil => exact .nil
  | cons o os ih =>
      rw [List.flatMap_cons, List.nodup_append] at hi
      obtain ⟨-, hi, hdisjoint⟩ := hi
      rw [List.map_cons, List.nodup_cons]
      cases o with
      | table t =>
          have hcons : (SchemaObject.table t :: os).filterMap tableName? =
              t.name.identity :: os.filterMap tableName? := List.filterMap_cons_some rfl
          rw [hcons, List.nodup_cons] at ht
          refine ⟨fun hm => ht.1 ?_, ih ht.2 hi⟩
          obtain ⟨o, ho, hkey⟩ := List.mem_map.mp hm
          cases o with
          | table t' => exact List.mem_filterMap.mpr ⟨_, ho, congrArg some (ObjectKey.table.inj hkey)⟩
          | index i => cases hkey
      | index i =>
          refine ⟨fun hm => ?_, ih ht hi⟩
          obtain ⟨o, ho, hkey⟩ := List.mem_map.mp hm
          cases o with
          | table t' => cases hkey
          | index i' =>
              have hname : i'.name.identity = i.name.identity := ObjectKey.index.inj hkey
              refine hdisjoint i.name.identity (by simp [indexNames, indexEntries]) _ ?_ hname.symm
              exact List.mem_flatMap.mpr ⟨_, ho, by simp [indexNames, indexEntries]⟩

theorem keys_nodup (h : Orderly os) : (os.map key).Nodup :=
  keys_nodup_of h.tables h.indexes

theorem apart_of (hi : (os.flatMap indexNames).Nodup) {x y : SchemaObject} (hx : x ∈ os)
    (hy : y ∈ os) (hne : x.key ≠ y.key) : x.Apart y := by
  refine ⟨hne, fun name hnx hny => ?_⟩
  have hpairwise := (List.nodup_flatMap.mp hi).2
  have hsymm : Std.Symm (Function.onFun List.Disjoint indexNames) :=
    ⟨fun _ _ hd _ hb ha => hd ha hb⟩
  exact hpairwise.forall hx hy (fun he => hne (he ▸ rfl)) hnx hny

theorem apart (h : Orderly os) {x y : SchemaObject} (hx : x ∈ os) (hy : y ∈ os)
    (hne : x.key ≠ y.key) : x.Apart y :=
  apart_of h.indexes hx hy hne

theorem exists_table (h : Orderly os) {pre post : List SchemaObject} {i : CreateIndex}
    (hos : os = pre ++ .index i :: post) :
    ∃ t, .table t ∈ pre ∧ t.name.identity = i.table.identity := by
  have hplaced := h.placed pre.length (by simp [hos]) i.table.identity (by simp [hos, indexedTable?])
  rw [hos, List.take_left] at hplaced
  obtain ⟨o, ho, hname⟩ := List.mem_filterMap.mp hplaced
  cases o with
  | table t => exact ⟨t, ho, Option.some.inj hname⟩
  | index i => cases hname

theorem plainNames (h : Orderly os) {i : CreateIndex} (hi : .index i ∈ os)
    (hcolumns : (SchemaObject.index i).HasColumns) : i.PlainNames := by
  have hplain := h.plain _ hi
  refine ⟨hplain _ (by simp [indexedNames]), hplain _ (by simp [indexedNames]), ?_,
    hcolumns, ?_⟩
  · intro m hm
    refine hplain _ ?_
    simp only [indexedNames, List.mem_cons, List.mem_append, List.mem_map, Option.mem_toList]
    exact .inr (.inr (.inl ⟨m, hm, rfl⟩))
  · intro c hc
    refine hplain _ ?_
    simp only [indexedNames, List.mem_cons, List.mem_append, List.mem_map]
    exact .inr (.inr (.inr ⟨c, hc, rfl⟩))

theorem plainIndex (h : Orderly os) {t : CreateTable} (ht : .table t ∈ os)
    (hcolumns : (SchemaObject.table t).HasColumns) {c : Constraint} (hc : c ∈ t.constraints) :
    c.PlainIndex := by
  intro isUnique columns hrule
  refine ⟨hcolumns c hc _ _ hrule, fun k hk => h.plain _ ht _ ?_⟩
  refine List.mem_flatMap.mpr ⟨c, hc, ?_⟩
  rw [hrule]
  exact List.mem_map_of_mem hk

-- The table of an index is not created behind it.
theorem table_ne (h : Orderly os) {l r : List SchemaObject} {t : CreateTable} {i : CreateIndex}
    (hos : os = l ++ .table t :: r) (hi : .index i ∈ l) : i.table.identity ≠ t.name.identity := by
  intro hname
  obtain ⟨pre, post, rfl⟩ := List.append_of_mem hi
  have hsplit : os = pre ++ .index i :: (post ++ .table t :: r) := by simp [hos]
  obtain ⟨t', ht', hname'⟩ := h.exists_table hsplit
  have hkeys := h.keys_nodup
  rw [hos, List.map_append, List.map_append, List.append_assoc, List.nodup_append] at hkeys
  refine hkeys.2.2 _ (List.mem_map_of_mem ht') (SchemaObject.table t).key (by simp) ?_
  exact congrArg ObjectKey.table (hname'.trans hname)

end Orderly

theorem map_statement_objects {s : Script} (h : ∀ statement ∈ s, statement.Creates) :
    (objects s).map statement = s := by
  induction s with
  | nil => rfl
  | cons first s ih =>
      have hrest := ih fun x hx => h x (by simp [hx])
      have hfirst := h first (by simp)
      cases first with
      | createTable t => exact congrArg (.createTable t :: ·) hrest
      | createIndex i => exact congrArg (.createIndex i :: ·) hrest
      | _ => exact absurd hfirst id

namespace SchemaPair

variable {p : SchemaPair}

theorem old?_eq_some (h : p.options = .default) (hkeys : ((objects p.before).map key).Nodup)
    {k : ObjectKey} {o : SchemaObject} :
    p.old? k = some o ↔ o ∈ objects p.before ∧ o.key = k := by
  have hreverse : ((objects p.before).reverse.map key).Nodup := by
    rw [List.map_reverse]
    exact List.nodup_reverse.mpr hkeys
  have hfind := TablePair.find?_name_eq_some hreverse (n := k) (x := o)
  rw [List.mem_reverse] at hfind
  rw [← hfind, old?]
  simp only [oldKey_eq h]

theorem old?_eq_none (h : p.options = .default) (hkeys : ((objects p.before).map key).Nodup)
    {k : ObjectKey} : p.old? k = none ↔ k ∉ (objects p.before).map key := by
  rw [Option.eq_none_iff_forall_ne_some, List.mem_map, not_exists]
  exact forall_congr' fun _ => not_congr (old?_eq_some h hkeys)

theorem new?_eq_some (hkeys : ((objects p.after).map key).Nodup) {k : ObjectKey}
    {o : SchemaObject} : p.new? k = some o ↔ o ∈ objects p.after ∧ o.key = k := by
  have hreverse : ((objects p.after).reverse.map key).Nodup := by
    rw [List.map_reverse]
    exact List.nodup_reverse.mpr hkeys
  have hfind := TablePair.find?_name_eq_some hreverse (n := k) (x := o)
  rw [List.mem_reverse] at hfind
  rw [← hfind, new?]

end SchemaPair

end SchemaDiff.Migration
