import Mathlib.Data.List.Flatten
import SchemaDiff.Proofs.Migration.Orderly
import SchemaDiff.Proofs.RoundTrip

namespace SchemaDiff.Migration

open Catalog SchemaObject

section Drops

variable {os : List SchemaObject}

theorem apart_of_append {pre post : List SchemaObject} {o : SchemaObject} (h : Orderly os)
    (hos : os.reverse = pre ++ o :: post) : ∀ x ∈ pre ++ post, o.Apart x := by
  have hmem : ∀ x ∈ pre ++ o :: post, x ∈ os := by
    intro x hx
    rw [← hos] at hx
    simpa using hx
  have hkeys : ((pre ++ o :: post).map key).Nodup := by
    rw [← hos, List.map_reverse]
    exact List.nodup_reverse.mpr h.keys_nodup
  intro x hx
  refine h.apart (hmem o (by simp)) (hmem x ?_) ?_
  · rcases List.mem_append.mp hx with hx | hx <;> simp [hx]
  · rw [List.map_append, List.map_cons, List.nodup_append, List.nodup_cons] at hkeys
    obtain ⟨-, ⟨hpost, -⟩, hpre⟩ := hkeys
    rcases List.mem_append.mp hx with hx | hx
    · exact (hpre _ (List.mem_map_of_mem hx) _ (by simp)).symm
    · exact fun he => hpost (he ▸ List.mem_map_of_mem hx)

-- Objects are dropped in the reverse of the order in which they were created. An index that stays
-- is on a table that stays.
theorem run_dropStatements (d : Dialect) (h : Orderly os) (dropped : SchemaObject → Bool)
    (hkept : ∀ i t, .index i ∈ os → .table t ∈ os → dropped (.index i) = false →
      i.table.identity = t.name.identity → dropped (.table t) = false) :
    run ((os.reverse.filter dropped).map (dropStatement d id)) (ofObjects os) =
      some (ofObjects (os.reverse.filter (!dropped ·))) := by
  have hreverse : ofObjects os = ofObjects (os.reverse.flatMap fun o => [o]) := by
    rw [List.flatMap_singleton']
    refine ofObjects_perm (List.reverse_perm os).symm ?_ h.indexes
    rw [map_tableEntryOf?]
    exact h.tables
  rw [hreverse, TablePair.map_filter_eq_flatMap, ← TablePair.flatMap_ite]
  refine run_flatMap ofObjects _ _ _ _ fun pre o post hos => ?_
  have hapart := apart_of_append h hos
  have hleft : ∀ x ∈ pre.flatMap fun o => if (!dropped o) = true then [o] else [],
      x ∈ pre ∧ dropped x = false := by
    intro x hx
    rw [TablePair.flatMap_ite, List.mem_filter] at hx
    simpa using hx
  rw [List.flatMap_singleton']
  by_cases hd : dropped o = true
  · simp only [hd, if_true, Bool.not_true, Bool.false_eq_true, if_false, List.append_nil,
      run_singleton, List.append_assoc, List.singleton_append]
    cases o with
    | index i =>
        refine exec_dropIndex (fun x hx => hapart x (by simp [(hleft x hx).1]))
          (fun x hx => hapart x (by simp [hx])) ?_
        by_cases hon : d.dropsIndexOnTable = true <;> simp [hon]
    | table t =>
        refine exec_dropTable (fun x hx => hapart x (by simp [(hleft x hx).1]))
          (fun x hx => hapart x (by simp [hx])) fun i hi hname => ?_
        have hos' : os = post.reverse ++ .table t :: pre.reverse := by
          rw [← List.reverse_reverse os, hos]
          simp
        rcases List.mem_append.mp hi with hi | hi
        · obtain ⟨hpre, hfalse⟩ := hleft _ hi
          have htable := hkept i t (by simp [hos', hpre]) (by simp [hos']) hfalse hname
          rw [htable] at hd
          exact Bool.false_ne_true hd
        · exact h.table_ne hos' (by simpa using hi) hname
  · simp [hd]

end Drops

namespace SchemaPair

-- What a run without hints may take for granted of its schemas.
structure Sound (p : SchemaPair) : Prop where
  options : p.options = .default
  before : Orderly (objects p.before)
  after : Orderly (objects p.after)
  compatible : Compatible (objects p.before) (objects p.after)
  hasColumns : ∀ o, o ∈ objects p.before ∨ o ∈ objects p.after → o.HasColumns

variable {p : SchemaPair}

namespace Sound

theorem old?_eq_some (h : p.Sound) {k : ObjectKey} {o : SchemaObject} :
    p.old? k = some o ↔ o ∈ objects p.before ∧ o.key = k :=
  SchemaPair.old?_eq_some h.options h.before.keys_nodup

theorem new?_eq_some (h : p.Sound) {k : ObjectKey} {o : SchemaObject} :
    p.new? k = some o ↔ o ∈ objects p.after ∧ o.key = k :=
  SchemaPair.new?_eq_some h.after.keys_nodup

-- An object stays if it is there in the new schema. An index has to be the same as well.
theorem isDropped_eq_false (h : p.Sound) {o : SchemaObject} :
    p.isDropped o = false ↔ ∃ n ∈ objects p.after, n.key = o.key ∧
      ∀ i j, o = .index i → n = .index j → i.identity = j.identity := by
  have hkey := oldKey_eq h.options o
  constructor
  · intro hd
    cases hn : p.new? o.key with
    | none => simp [isDropped, hkey, hn] at hd
    | some n =>
        obtain ⟨hmem, hnkey⟩ := h.new?_eq_some.mp hn
        refine ⟨n, hmem, hnkey, ?_⟩
        rintro i j rfl rfl
        simpa [isDropped, hkey, hn, indexChanged_eq h.options] using hd
  · rintro ⟨n, hmem, hnkey, hsame⟩
    have hn := h.new?_eq_some.mpr ⟨hmem, hnkey⟩
    cases o with
    | table t => simp [isDropped, hkey, hn]
    | index i =>
        cases n with
        | table t => cases hnkey
        | index j => simp [isDropped, hkey, hn, indexChanged_eq h.options, hsame i j rfl rfl]

-- An old or a new object in the place of a new one.
def IsVersion (p : SchemaPair) (o new : SchemaObject) : Prop :=
  o.key = new.key ∧ (o ∈ objects p.before ∨ o ∈ objects p.after)

theorem apart (h : p.Sound) {x y a b : SchemaObject} (hx : IsVersion p x a) (hy : IsVersion p y b)
    (hne : a.key ≠ b.key) : x.Apart y := by
  obtain ⟨hxkey, hx⟩ := hx
  obtain ⟨hykey, hy⟩ := hy
  have hne : x.key ≠ y.key := by rwa [hxkey, hykey]
  rcases hx with hx | hx <;> rcases hy with hy | hy
  · exact h.before.apart hx hy hne
  · exact ⟨hne, fun name hnx hny => hne (h.compatible x hx y hy name hnx hny)⟩
  · exact ⟨hne, fun name hnx hny => hne (h.compatible y hy x hx name hny hnx).symm⟩
  · exact h.after.apart hx hy hne

-- The other objects in a pass over the new schema, some of them in their old version.
theorem apart_of_versions (h : p.Sound) {pre post : List SchemaObject} {a x : SchemaObject}
    (hafter : objects p.after = pre ++ a :: post) (hx : IsVersion p x a)
    {f : SchemaObject → List SchemaObject}
    (hf : ∀ n ∈ objects p.after, ∀ o ∈ f n, IsVersion p o n) :
    (∀ o ∈ pre.flatMap f, x.Apart o) ∧ ∀ o ∈ post.flatMap f, x.Apart o := by
  have hkeys := h.after.keys_nodup
  rw [hafter, List.map_append, List.map_cons, List.nodup_append, List.nodup_cons] at hkeys
  obtain ⟨-, ⟨hpost, -⟩, hpre⟩ := hkeys
  constructor
  · intro o ho
    obtain ⟨n, hn, hon⟩ := List.mem_flatMap.mp ho
    refine h.apart hx (hf n (by simp [hafter, hn]) o hon) fun he => ?_
    exact hpre n.key (List.mem_map_of_mem hn) a.key (by simp) he.symm
  · intro o ho
    obtain ⟨n, hn, hon⟩ := List.mem_flatMap.mp ho
    refine h.apart hx (hf n (by simp [hafter, hn]) o hon) fun he => ?_
    exact hpost (he ▸ List.mem_map_of_mem hn)

end Sound

-- The old version of a new object, if it was not dropped.
def carried (p : SchemaPair) (new : SchemaObject) : List SchemaObject :=
  ((p.old? new.key).filter (!p.isDropped ·)).toList

-- The object after what is new was created.
def created (p : SchemaPair) (new : SchemaObject) : List SchemaObject :=
  if (p.old? new.key).isNone then [new] else p.carried new

namespace Sound

theorem mem_carried (h : p.Sound) {o new : SchemaObject} :
    o ∈ p.carried new ↔ (o ∈ objects p.before ∧ o.key = new.key) ∧ p.isDropped o = false := by
  rw [← h.old?_eq_some]
  simp [carried, Option.filter_eq_some_iff]

theorem isVersion_carried (h : p.Sound) {new : SchemaObject} :
    ∀ o ∈ p.carried new, IsVersion p o new := by
  intro o ho
  obtain ⟨⟨hmem, hkey⟩, -⟩ := h.mem_carried.mp ho
  exact ⟨hkey, .inl hmem⟩

theorem isVersion_created (h : p.Sound) {new : SchemaObject} (hn : new ∈ objects p.after) :
    ∀ o ∈ p.created new, IsVersion p o new := by
  intro o ho
  unfold created at ho
  split at ho
  · obtain rfl := List.mem_singleton.mp ho
    exact ⟨rfl, .inr hn⟩
  · exact h.isVersion_carried o ho

-- What is left of the old schema is what the new schema carries on, in another order.
theorem ofObjects_carried (h : p.Sound) :
    ofObjects ((objects p.before).reverse.filter (!p.isDropped ·)) =
      ofObjects ((objects p.after).flatMap p.carried) := by
  have hnodup : (objects p.before).Nodup := .of_map _ h.before.keys_nodup
  have hsub : ((objects p.before).reverse.filter (!p.isDropped ·)).Sublist
      (objects p.before).reverse := List.filter_sublist
  have hleft : ((objects p.before).reverse.filter (!p.isDropped ·)).Nodup :=
    hsub.nodup (List.nodup_reverse.mpr hnodup)
  have hright : ((objects p.after).flatMap p.carried).Nodup := by
    refine List.nodup_flatMap.mpr ⟨fun n _ => ?_, ?_⟩
    · unfold carried
      cases (p.old? n.key).filter (!p.isDropped ·) <;> simp
    · refine (List.pairwise_map.mp h.after.keys_nodup).imp fun hne o hx hy => hne ?_
      exact (h.mem_carried.mp hx).1.2.symm.trans (h.mem_carried.mp hy).1.2
  refine ofObjects_perm ((List.perm_ext_iff_of_nodup hleft hright).mpr fun o => ?_) ?_ ?_
  · simp only [List.mem_filter, List.mem_reverse, List.mem_flatMap, h.mem_carried,
      Bool.not_eq_true']
    constructor
    · rintro ⟨ho, hd⟩
      obtain ⟨n, hn, hkey, -⟩ := h.isDropped_eq_false.mp hd
      exact ⟨n, hn, ⟨ho, hkey.symm⟩, hd⟩
    · rintro ⟨n, hn, ⟨ho, -⟩, hd⟩
      exact ⟨ho, hd⟩
  · rw [map_tableEntryOf?]
    refine (hsub.filterMap tableName?).nodup ?_
    rw [List.filterMap_reverse]
    exact List.nodup_reverse.mpr h.before.tables
  · refine (hsub.flatMap indexNames).nodup ?_
    exact ((List.reverse_perm _).flatMap_right indexNames).nodup_iff.mpr h.before.indexes

theorem exists_carried_table (h : p.Sound) {t : CreateTable} (ht : .table t ∈ objects p.after) :
    ∃ t', .table t' ∈ p.created (.table t) ∧ t'.name.identity = t.name.identity := by
  unfold created
  cases hold : p.old? (SchemaObject.table t).key with
  | none => exact ⟨t, by simp, rfl⟩
  | some o =>
      obtain ⟨hmem, hkey⟩ := h.old?_eq_some.mp hold
      cases o with
      | index i => cases hkey
      | table t' =>
          refine ⟨t', ?_, ObjectKey.table.inj hkey⟩
          simp only [Option.isNone_some, Bool.false_eq_true, if_false]
          refine h.mem_carried.mpr ⟨⟨hmem, hkey⟩, h.isDropped_eq_false.mpr ⟨_, ht, hkey.symm, ?_⟩⟩
          rintro i j hi
          cases hi

theorem run_creates (h : p.Sound) :
    run (Step.statements p.creates) (ofObjects ((objects p.after).flatMap p.carried)) =
      some (ofObjects ((objects p.after).flatMap p.created)) := by
  rw [creates, Step.statements_map_emit, TablePair.map_filter_eq_flatMap]
  refine run_flatMap ofObjects _ _ _ _ fun pre a post hafter => ?_
  have ha : a ∈ objects p.after := by simp [hafter]
  cases hold : p.old? a.key with
  | some o => simp [created, hold]
  | none =>
      have hnone : p.carried a = [] := by simp [carried, hold]
      have hcreated : p.created a = [a] := by simp [created, hold]
      have hl := (h.apart_of_versions hafter (x := a) ⟨rfl, .inr ha⟩
        fun n hn => h.isVersion_created hn).1
      have hr := (h.apart_of_versions hafter (x := a) ⟨rfl, .inr ha⟩
        fun n _ => h.isVersion_carried).2
      rw [hnone, hcreated]
      simp only [Option.isNone_none, if_true, run_singleton, List.append_nil, List.append_assoc,
        List.singleton_append]
      cases a with
      | table t => exact exec_createTable hl hr (h.after.columns _ ha) (h.after.constraints _ ha)
      | index i =>
          obtain ⟨t, ht, hname⟩ := h.after.exists_table hafter
          obtain ⟨t', ht', hname'⟩ := h.exists_carried_table (t := t) (by simp [hafter, ht])
          refine exec_createIndex hl hr ⟨t', ?_, hname'.trans hname⟩
          exact List.mem_append_left _ (List.mem_flatMap.mpr ⟨_, ht, ht'⟩)

-- An index is created anew if it changed. An index that did not is the same to a database.
theorem run_alterIndex (h : p.Sound) {pre post : List SchemaObject} {i : CreateIndex}
    {o : SchemaObject} (hafter : objects p.after = pre ++ .index i :: post)
    (hold : p.old? (SchemaObject.index i).key = some o) :
    run (Step.statements (p.alterSteps (.index i)))
        (ofObjects (pre ++ (p.created (.index i) ++ post.flatMap p.created))) =
      some (ofObjects (pre ++ .index i :: post.flatMap p.created)) := by
  have hi : .index i ∈ objects p.after := by simp [hafter]
  obtain ⟨hmem, hkey⟩ := h.old?_eq_some.mp hold
  cases o with
  | table t => cases hkey
  | index old =>
      have hcreated : p.created (.index i) = p.carried (.index i) := by simp [created, hold]
      by_cases hsame : old.identity = i.identity
      · have hd : p.isDropped (.index old) = false := by
          refine h.isDropped_eq_false.mpr ⟨_, hi, hkey.symm, ?_⟩
          rintro i' j' hi' hj'
          cases hi'
          cases hj'
          exact hsame
        have hcarried : p.carried (.index i) = [.index old] := by simp [carried, hold, hd]
        obtain ⟨hname, hstate⟩ := CreateIndex.of_identity
          (h.before.plainNames hmem (h.hasColumns _ (.inl hmem)))
          (h.after.plainNames hi (h.hasColumns _ (.inr hi))) hsame
        rw [hcreated, hcarried, List.singleton_append, ofObjects_index, ofObjects_index, hname,
          hstate]
        simp [alterSteps, hold, indexChanged_eq h.options, hsame]
      · have hd : p.isDropped (.index old) = true := by
          by_contra hd
          obtain ⟨n, hn, hnkey, hidentity⟩ := h.isDropped_eq_false.mp (by simpa using hd)
          have hni : n = .index i := List.inj_on_of_nodup_map h.after.keys_nodup hn hi
            (hnkey.trans hkey)
          exact hsame (hidentity old i rfl hni)
        have hcarried : p.carried (.index i) = [] := by simp [carried, hold, hd]
        have hl := (h.apart_of_versions hafter (x := .index i) ⟨rfl, .inr hi⟩ (f := fun n => [n])
          fun n hn o ho => by
            obtain rfl := List.mem_singleton.mp ho
            exact ⟨rfl, .inr hn⟩).1
        have hr := (h.apart_of_versions hafter (x := .index i) ⟨rfl, .inr hi⟩
          fun n hn => h.isVersion_created hn).2
        rw [List.flatMap_singleton'] at hl
        obtain ⟨t, ht, hname⟩ := h.after.exists_table hafter
        have hexec := exec_createIndex hl hr ⟨t, List.mem_append_left _ ht, hname⟩
        rw [hcreated, hcarried, List.nil_append]
        simpa [alterSteps, hold, indexChanged_eq h.options, hsame] using hexec

theorem avoids (h : p.Sound) {pre post : List SchemaObject} {a : SchemaObject} {t : CreateTable}
    (hafter : objects p.after = pre ++ a :: post) (ht : IsVersion p (.table t) a)
    {c : Constraint} (hc : c ∈ t.constraints) :
    (between pre (post.flatMap p.created)).Avoids c := by
  have hl := (h.apart_of_versions hafter ht (f := fun n => [n]) fun n hn o ho => by
    obtain rfl := List.mem_singleton.mp ho
    exact ⟨rfl, .inr hn⟩).1
  have hr := (h.apart_of_versions hafter ht fun n hn => h.isVersion_created hn).2
  rw [List.flatMap_singleton'] at hl
  exact avoids_between hl hr hc

theorem run_alterTable (h : p.Sound) {pre post : List SchemaObject} {t : CreateTable}
    {o : SchemaObject} (hafter : objects p.after = pre ++ .table t :: post)
    (hold : p.old? (SchemaObject.table t).key = some o)
    (hrefusal : Step.refusal? (p.alterSteps (.table t)) = none) :
    run (Step.statements (p.alterSteps (.table t)))
        (ofObjects (pre ++ (p.created (.table t) ++ post.flatMap p.created))) =
      some (ofObjects (pre ++ .table t :: post.flatMap p.created)) := by
  have ht : .table t ∈ objects p.after := by simp [hafter]
  obtain ⟨hmem, hkey⟩ := h.old?_eq_some.mp hold
  cases o with
  | index i => cases hkey
  | table old =>
      have hname : old.name.identity = t.name.identity := ObjectKey.table.inj hkey
      have hd : p.isDropped (.table old) = false := by
        refine h.isDropped_eq_false.mpr ⟨_, ht, hkey.symm, ?_⟩
        rintro i j hi
        cases hi
      have hcreated : p.created (.table t) = [.table old] := by
        simp [created, carried, hold, hd]
      have hsteps : p.alterSteps (.table t) = (p.tablePair old t).steps := by
        simp [alterSteps, hold]
      have hversion : IsVersion p (.table t) (.table t) := ⟨rfl, .inr ht⟩
      have holdVersion : IsVersion p (.table old) (.table t) := ⟨hkey, .inl hmem⟩
      have hl := (h.apart_of_versions hafter hversion (f := fun n => [n]) fun n hn o ho => by
        obtain rfl := List.mem_singleton.mp ho
        exact ⟨rfl, .inr hn⟩).1
      rw [List.flatMap_singleton'] at hl
      rw [hsteps] at hrefusal ⊢
      rw [hcreated, List.singleton_append, ofObjects_table, ofObjects_table, hname]
      exact TablePair.run_steps (tablePair_unhinted h.options old t) hrefusal (table_notMem hl)
        (h.before.columns _ hmem) (h.after.columns _ ht) (h.before.constraints _ hmem)
        (h.after.constraints _ ht) (fun c hc => h.avoids hafter holdVersion hc)
        (fun c hc => h.avoids hafter hversion hc)
        fun c hc c' hc' => Constraint.same_of_plain
          (h.before.plainIndex hmem (h.hasColumns _ (.inl hmem)) hc)
          (h.after.plainIndex ht (h.hasColumns _ (.inr ht)) hc')

theorem run_alters (h : p.Sound) (hrefusal : Step.refusal? p.alters = none) :
    run (Step.statements p.alters) (ofObjects ((objects p.after).flatMap p.created)) =
      some (ofObjects (objects p.after)) := by
  rw [alters, Step.statements_flatMap]
  nth_rewrite 3 [← List.flatMap_singleton' (objects p.after)]
  refine run_flatMap ofObjects _ _ _ _ fun pre a post hafter => ?_
  have ha : a ∈ objects p.after := by simp [hafter]
  rw [List.flatMap_singleton']
  simp only [List.append_assoc, List.singleton_append]
  cases hold : p.old? a.key with
  | none => simp [created, alterSteps, hold]
  | some o =>
      cases a with
      | index i => exact h.run_alterIndex hafter hold
      | table t =>
          refine h.run_alterTable hafter hold (Step.refusal?_eq_none_of_mem hrefusal ?_)
          exact fun step hstep => List.mem_flatMap.mpr ⟨_, ha, hstep⟩

theorem run_drops (h : p.Sound) :
    run (Step.statements p.drops) (ofObjects (objects p.before)) =
      some (ofObjects ((objects p.after).flatMap p.carried)) := by
  have hrename : renameTable p.dialect p.options.tableRenames = id := by
    rw [h.options]
    rfl
  rw [drops, Step.statements_map_emit, hrename, ← h.ofObjects_carried]
  refine run_dropStatements p.dialect h.before p.isDropped fun i t hi ht hd hname => ?_
  -- The new version of the index is on a table of the new schema.
  obtain ⟨n, hn, hkey, hidentity⟩ := h.isDropped_eq_false.mp hd
  cases n with
  | table t' => cases hkey
  | index j =>
      obtain ⟨-, hstate⟩ := CreateIndex.of_identity (h.before.plainNames hi (h.hasColumns _ (.inl hi)))
        (h.after.plainNames hn (h.hasColumns _ (.inr hn))) (hidentity i j rfl rfl)
      have htable : i.table.identity = j.table.identity := congrArg IndexState.table hstate
      obtain ⟨pre, post, hafter⟩ := List.append_of_mem hn
      obtain ⟨t', ht', hname'⟩ := h.after.exists_table hafter
      refine h.isDropped_eq_false.mpr ⟨.table t', by simp [hafter, ht'], ?_, ?_⟩
      · exact congrArg ObjectKey.table (hname'.trans (htable.symm.trans hname))
      · rintro i' j' hi'
        cases hi'

theorem run_steps (h : p.Sound) (hrefusal : Step.refusal? p.steps = none) :
    run (Step.statements p.steps) (ofObjects (objects p.before)) =
      some (ofObjects (objects p.after)) := by
  have halters : Step.refusal? p.alters = none :=
    Step.refusal?_eq_none_of_mem hrefusal fun step hs => by simp [steps, hs]
  have hrenames : p.renames = [] := by simp [renames, h.options, Options.default]
  rw [steps, hrenames, List.append_nil, Step.statements_append, Step.statements_append,
    Step.statements_append, statements_refusals, List.nil_append]
  exact run_append_of (run_append_of h.run_drops h.run_creates) (h.run_alters halters)

end Sound

end SchemaPair

theorem hasColumns_of_parse {d : Dialect} {text : String} {s : Script}
    (h : Script.parse d text = .ok s) : ∀ o ∈ objects s, o.HasColumns := by
  intro o ho
  obtain ⟨statement, hs, ho⟩ := List.mem_filterMap.mp ho
  have hreadable := Script.readable_of_parse h statement hs
  cases statement with
  | createTable t =>
      cases ho
      intro c hc isUnique columns hrule
      have hc := (CreateTable.Readable.constraints hreadable c hc).rule
      rw [hrule] at hc
      exact (Rule.Readable.listReadable hc).ne_nil
  | createIndex i =>
      cases ho
      exact (CreateIndex.Readable.toParts hreadable).columns.ne_nil
  | _ => cases ho

-- A schema that was accepted, and whose statements can be run in their order.
structure IsSchema (d : Dialect) (s : Script) : Prop where
  accepted : ∃ text, Script.parse d text = .ok s
  creates : ∀ statement ∈ s, statement.Creates
  orderly : Orderly (objects s)

-- The run of a schema creates what it consists of.
theorem run_schema {d : Dialect} {s : Script} (h : IsSchema d s) :
    run s (ofScript []) = some (ofScript s) := by
  obtain ⟨text, haccepted⟩ := h.accepted
  have hsound : SchemaPair.Sound ⟨d, .default, [], s⟩ := by
    have hnil : Orderly [] := by decide
    refine ⟨rfl, hnil, h.orderly, by simp [Compatible, objects], fun o ho => ?_⟩
    exact hasColumns_of_parse haccepted o (by simpa [objects] using ho)
  have hold : ∀ k, SchemaPair.old? ⟨d, .default, [], s⟩ k = none := fun _ => rfl
  have hcarried : SchemaPair.carried ⟨d, .default, [], s⟩ = fun _ => [] := by
    funext o
    simp [SchemaPair.carried, hold]
  have hcreated : SchemaPair.created ⟨d, .default, [], s⟩ = fun o => [o] := by
    funext o
    simp [SchemaPair.created, hold]
  have hrun := hsound.run_creates
  have hnil : (objects s).flatMap (fun _ => ([] : List SchemaObject)) = [] := by
    simp [List.flatMap_eq_nil_iff]
  have hall : (objects s).filter (fun new => (SchemaPair.old? ⟨d, .default, [], s⟩ new.key).isNone) =
      objects s := List.filter_eq_self.mpr fun o _ => by rw [hold]; rfl
  rw [SchemaPair.creates, Step.statements_map_emit, hcarried, hcreated, List.flatMap_singleton',
    hnil, hall, map_statement_objects h.creates] at hrun
  exact hrun

-- A schema is taken down to nothing.
theorem run_dropAll {d : Dialect} {s : Script} (h : IsSchema d s) :
    run (Step.statements (dropAll d s)) (ofScript s) = some (ofScript []) := by
  have hdrops := run_dropStatements d h.orderly (fun _ => true) (by simp)
  rw [List.filter_eq_self.mpr (by simp)] at hdrops
  rw [statements_dropAll]
  simpa [ofScript, objects] using hdrops

-- A migration turns the state of the old schema into the state of the new one.
theorem diff_converges {d : Dialect} {before after : Option Script} {m : Script}
    (hbefore : ∀ s ∈ before, IsSchema d s) (hafter : ∀ s ∈ after, IsSchema d s)
    (hcompatible : Compatible (objects (before.getD [])) (objects (after.getD [])))
    (h : diff d .default before after = .ok m) :
    run m (ofScript (before.getD [])) = some (ofScript (after.getD [])) := by
  obtain ⟨hrefusal, rfl, hne⟩ := diff_eq_ok h
  cases before with
  | none =>
      cases after with
      | none => exact absurd rfl hne
      | some s =>
          rw [statements_steps_none]
          exact run_schema (hafter s rfl)
  | some s =>
      cases after with
      | none => exact run_dropAll (hbefore s rfl)
      | some s' =>
          have hb := hbefore s rfl
          have ha := hafter s' rfl
          obtain ⟨text, hread⟩ := hb.accepted
          obtain ⟨text', hread'⟩ := ha.accepted
          have hsound : SchemaPair.Sound ⟨d, .default, s, s'⟩ :=
            ⟨rfl, hb.orderly, ha.orderly, hcompatible, fun o ho =>
              ho.elim (hasColumns_of_parse hread o) (hasColumns_of_parse hread' o)⟩
          by_cases hsame : s.identity = s'.identity
          · simp [steps, hsame] at hne
          · simp only [steps, if_neg hsame] at hrefusal ⊢
            exact hsound.run_steps hrefusal

-- The items after their code became a name, which is longer and has the index.
def namedItems : Script := [
  .createTable ⟨false, .ofIdent (.bare "items"),
    [⟨.bare "id", ⟨"INT", [], ["UNSIGNED"], 0⟩, true, none, false⟩,
      ⟨.bare "name", ⟨"VARCHAR", [.bare "20"], [], 0⟩, false, none, false⟩],
    [⟨.bare "items_pkey", .primaryKey [.ascending (.bare "id")]⟩,
      ⟨.bare "items_unique_name", .index true [.ascending (.bare "name")]⟩],
    [⟨"ENGINE", .bare "InnoDB", false⟩]⟩,
  .createIndex ⟨false, false, .ofIdent (.bare "i"), .ofIdent (.bare "items"), none,
    [.ascending (.bare "name")], none⟩]

theorem isSchema_items : IsSchema .mysql Script.items where
  accepted := ⟨_, Script.parse_items⟩
  creates := by decide
  orderly := by decide +kernel

theorem isSchema_namedItems : IsSchema .mysql namedItems where
  accepted := ⟨"CREATE TABLE items (id int unsigned PRIMARY KEY, name varchar(20) UNIQUE) ENGINE InnoDB;
    CREATE INDEX i ON items (name)", by decide +kernel⟩
  creates := by decide
  orderly := by decide +kernel

theorem diff_converges_items : ∃ m, diff .mysql .default (some Script.items) (some namedItems) = .ok m ∧
    m.length = 7 ∧ run m (ofScript Script.items) = some (ofScript namedItems) := by
  have hlength : ((Migration.diff .mysql .default (some Script.items) (some namedItems)).toOption.map
      List.length) = some 7 := by
    decide +kernel
  cases h : diff .mysql .default (some Script.items) (some namedItems) with
  | error e => simp [h, Except.toOption] at hlength
  | ok m =>
      refine ⟨m, rfl, by simpa [h, Except.toOption] using hlength, ?_⟩
      have hbefore : ∀ s ∈ some Script.items, IsSchema .mysql s := by simpa using isSchema_items
      have hafter : ∀ s ∈ some namedItems, IsSchema .mysql s := by simpa using isSchema_namedItems
      exact diff_converges hbefore hafter (by decide +kernel) h

end SchemaDiff.Migration
