import SchemaDiff.Proofs.Migration.TableIndexes

namespace SchemaDiff.Migration

open SchemaObject Indexes

-- The object that brings the index of that name, by itself or in a table.
def holder? (s : Script) (name : String) : Option SchemaObject :=
  (objects s).find? fun x => decide (name ∈ x.indexNames)

-- An index of its own is gone before its table is dropped.
def Leaves (before after : Script) (i : CreateIndex) : Prop :=
  i.table.identity ∈ tableNames after ∨
    i.table.identity ∉ ((objects before).dropWhile (· ≠ .index i)).filterMap tableName?

instance (before after : Script) (i : CreateIndex) : Decidable (Leaves before after i) :=
  inferInstanceAs (Decidable (_ ∨ _))

-- The name can be handed over from the old to the new schema. An old index of its own that is the
-- same in the new schema stays, on a table that stays. Any other index of its own only has to be
-- gone before its table is. An old index in a table that stays cannot become one of its own. It can
-- become one in another table if both schemas have that table, and the new one lists it behind.
def Handover (before after : Script) (name : String) : Prop :=
  match holder? before name, holder? after name with
  | none, _ => True
  | some (.index i), some (.index j) =>
      if i.identity = j.identity then
        IndexState.of i = .of j ∧
          (i.table.identity ∈ tableNames before → i.table.identity ∈ tableNames after)
      else Leaves before after i
  | some (.index i), _ => Leaves before after i
  | some (.table _), none => True
  | some (.table t), some (.index _) => t.name.identity ∉ tableNames after
  | some (.table t), some (.table u) =>
      if t.name.identity = u.name.identity then
        TablePair.SameAt t u name →
          (SchemaObject.table t).indexEntries.lookup name =
            (SchemaObject.table u).indexEntries.lookup name
      else
        t.name.identity ∈ tableNames after → u.name.identity ∈ tableNames before ∧
          t.name.identity ∈ ((objects after).takeWhile (· ≠ .table u)).filterMap tableName?

instance (before after : Script) (name : String) : Decidable (Handover before after name) := by
  unfold Handover
  split <;> infer_instance

section Holder

variable {s : Script} {name : String} {x y : SchemaObject}

namespace Distinct

theorem holder?_eq_some (h : Distinct s) :
    holder? s name = some x ↔ x ∈ objects s ∧ name ∈ x.indexNames := by
  constructor
  · exact fun hx => ⟨List.mem_of_find?_eq_some hx, by simpa using List.find?_some hx⟩
  · rintro ⟨hx, hname⟩
    cases hy : holder? s name with
    | none => exact absurd hname (by simpa using List.find?_eq_none.mp hy x hx)
    | some y =>
        rw [h.eq_of_mem_indexNames hx (List.mem_of_find?_eq_some hy) hname
          (by simpa using List.find?_some hy)]

end Distinct

theorem mem_own_iff {i : CreateIndex} : name ∈ (SchemaObject.index i).indexNames ↔
    name = i.name.identity := by
  simp [indexNames, indexEntries]

theorem holder?_eq_none : holder? s name = none ↔ ∀ x ∈ objects s, name ∉ x.indexNames := by
  simp [holder?]

theorem lookup_flatMap (os : List SchemaObject) : (os.flatMap indexEntries).lookup name =
    (os.find? fun x => decide (name ∈ x.indexNames)).bind (·.indexEntries.lookup name) := by
  induction os with
  | nil => rfl
  | cons x os ih =>
      rw [List.flatMap_cons, List.lookup_append]
      by_cases hname : name ∈ x.indexNames
      · obtain ⟨i, hi⟩ := Option.isSome_iff_exists.mp (lookup_isSome_iff.mpr hname)
        simp [hname, hi]
      · rw [Store.lookup_eq_none hname, Option.none_or, ih,
          List.find?_cons_of_neg (by simpa using hname)]

-- The index of a name comes with the object that holds it.
theorem of_eq_holder (hobjects : (objects s).map statement = s) :
    Indexes.of s name = (holder? s name).bind (·.indexEntries.lookup name) := by
  rw [of_apply hobjects, lookup_flatMap]
  rfl

end Holder

section Drops

variable {os : List SchemaObject} {name : String} {o o' : Option IndexState} (d : Dialect)

theorem leads_dropTable (t : CreateTable) :
    (watchAt name).Leads o [dropStatement d id (.table t)]
      (o.filter (·.table != t.name.identity)) :=
  Watch.leads_singleton.mpr ⟨(nomatch ·), rfl⟩

theorem silent_dropIndex {i : CreateIndex} (h : i.name.identity ≠ name) :
    (watchAt name).Silent [dropStatement d id (.index i)] :=
  fun _ => Watch.leads_singleton.mpr ⟨fun heq => absurd heq h, if_neg h⟩

-- What is left of an index, if it is not dropped itself.
theorem leads_drops (hother : ∀ i, .index i ∈ os → i.name.identity ≠ name) :
    (watchAt name).Leads o (os.map (dropStatement d id))
      (o.filter fun i => decide (i.table ∉ os.filterMap tableName?)) := by
  induction os generalizing o with
  | nil => exact Watch.leads_nil.mpr (by cases o <;> rfl)
  | cons x os ih =>
      have hrest := fun o => ih (o := o) fun i hi => hother i (by simp [hi])
      rw [List.map_cons, ← List.singleton_append]
      cases x with
      | index i =>
          rw [Watch.leads_append_of (silent_dropIndex d (hother i (by simp)) o)]
          exact hrest o
      | table t =>
          rw [Watch.leads_append_of (leads_dropTable d t)]
          have hcons : (SchemaObject.table t :: os).filterMap tableName? =
              t.name.identity :: os.filterMap tableName? := List.filterMap_cons_some rfl
          have hfilter : (o.filter fun i =>
                decide (i.table ∉ t.name.identity :: os.filterMap tableName?)) =
              (o.filter (·.table != t.name.identity)).filter fun i =>
                decide (i.table ∉ os.filterMap tableName?) := by
            cases o with
            | none => rfl
            | some i => by_cases ht : i.table = t.name.identity <;> simp [Option.filter, ht]
          rw [hcons, hfilter]
          exact hrest _

-- An index of its own has to be dropped while it is there.
theorem leads_drops_own {l r : List SchemaObject} {i : CreateIndex}
    (hl : ∀ j, .index j ∈ l → j.name.identity ≠ i.name.identity)
    (hr : ∀ j, .index j ∈ r → j.name.identity ≠ i.name.identity) :
    (watchAt i.name.identity).Leads (some (.of i))
        ((l ++ .index i :: r).map (dropStatement d id)) o' ↔
      i.table.identity ∉ l.filterMap tableName? ∧ o' = none := by
  rw [List.map_append, List.map_cons, Watch.leads_append_of (leads_drops d hl), Watch.leads_cons]
  have hnone : (watchAt i.name.identity).Leads none (r.map (dropStatement d id)) none :=
    leads_drops (o := none) d hr
  by_cases htable : i.table.identity ∈ l.filterMap tableName?
  · have hgone : (some (IndexState.of i)).filter
        (fun i => decide (i.table ∉ l.filterMap tableName?)) = none := by
      simp [Option.filter, IndexState.of, htable]
    rw [hgone]
    refine iff_of_false (fun h => ?_) fun h => h.1 htable
    obtain ⟨j, hj, -⟩ := h.1 rfl
    cases hj
  · have hthere : (some (IndexState.of i)).filter
        (fun i => decide (i.table ∉ l.filterMap tableName?)) = some (.of i) := by
      simp [Option.filter, IndexState.of, htable]
    have hexec : (watchAt i.name.identity).exec (some (.of i)) (dropStatement d id (.index i)) =
        none := if_pos rfl
    have hadmits : (watchAt i.name.identity).Admits (some (.of i))
        (dropStatement d id (.index i)) := by
      refine fun _ => ⟨_, rfl, fun t ht => ?_⟩
      split at ht
      · cases ht
        rfl
      · cases ht
    rw [hthere, hexec, iff_true_intro hadmits, true_and, iff_true_intro htable, true_and]
    exact ⟨fun h => hnone.eq h ▸ rfl, fun h => h ▸ hnone⟩

end Drops

namespace SchemaPair

variable {p : SchemaPair} {name : String} {o o' : Option IndexState}

namespace Named

-- An object counts for an index in the pass of alters if one of its versions has it.
theorem silent_alterSteps (h : p.Named) {x : SchemaObject} (hx : x ∈ objects p.after)
    (hnew : name ∉ x.indexNames)
    (hold : ∀ q ∈ p.tablePair? x, name ∉ (SchemaObject.table q.old).indexNames) :
    (watchAt name).Silent (Step.statements (p.alterSteps x)) := by
  cases hq : p.tablePair? x with
  | none =>
      cases x with
      | table t =>
          rw [statements_alterSteps_of_none hq]
          exact fun o => Watch.leads_nil.mpr rfl
      | index i =>
          rw [statements_alterSteps_index]
          split
          · split
            · exact leads_statement_of_not_mem (x := .index i) hnew
            · exact fun o => Watch.leads_nil.mpr rfl
          · exact fun o => Watch.leads_nil.mpr rfl
  | some q =>
      obtain ⟨hr, ho, hn⟩ := h.steps_of_tablePair? hx hq
      rw [alterSteps_of_some hq]
      refine TablePair.silent_steps (h.unhinted hq) ho hn hr ?_ ?_
      · rw [TablePair.loses_iff ho]
        exact fun hl => hold q hq hl.1
      · obtain ⟨t, u, rfl, rfl, -, -⟩ := h.of_tablePair? hq
        rw [TablePair.gains_iff ho hn]
        exact fun hg => hnew hg.1

theorem statements_creates_eq (p : SchemaPair) : Step.statements p.creates =
    (objects p.after).flatMap fun x => if (p.old? x.key).isNone then [x.statement] else [] := by
  rw [statements_creates, TablePair.map_filter_eq_flatMap]

theorem silent_creates (h : ∀ y ∈ objects p.after, name ∈ y.indexNames →
    (p.old? y.key).isSome = true) : (watchAt name).Silent (Step.statements p.creates) := by
  rw [statements_creates_eq]
  refine Watch.silent_flatMap fun x hx => ?_
  split
  · rename_i hfresh
    refine leads_statement_of_not_mem fun hname => ?_
    have hold := h x hx hname
    rw [Option.isNone_iff_eq_none.mp hfresh] at hold
    cases hold
  · exact fun o => Watch.leads_nil.mpr rfl

theorem leads_creates (h : p.Named) {y : SchemaObject} (hy : y ∈ objects p.after)
    (hname : name ∈ y.indexNames) (hfresh : p.old? y.key = none) :
    (watchAt name).Leads o (Step.statements p.creates) o' ↔
      o = none ∧ o' = y.indexEntries.lookup name := by
  rw [statements_creates_eq, Watch.leads_flatMap_of_mem hy h.nodup_objects fun x hx hne => ?_]
  · simp only [hfresh, Option.isNone_none, if_true]
    exact leads_statement_of_mem hname
  · split
    · exact leads_statement_of_not_mem fun hx' =>
        hne (h.after.eq_of_mem_indexNames hx hy hx' hname)
    · exact fun o => Watch.leads_nil.mpr rfl

-- An object is no matter of the index in the pass of alters.
def Aside (p : SchemaPair) (name : String) (x : SchemaObject) : Prop :=
  name ∉ x.indexNames ∧ ∀ q ∈ p.tablePair? x, name ∉ (SchemaObject.table q.old).indexNames

theorem silent_alters (h : p.Named) {os : List SchemaObject} (hos : ∀ x ∈ os, x ∈ objects p.after)
    (haside : ∀ x ∈ os, Aside p name x) :
    (watchAt name).Silent (os.flatMap fun x => Step.statements (p.alterSteps x)) :=
  Watch.silent_flatMap fun x hx =>
    h.silent_alterSteps (hos x hx) (haside x hx).1 (haside x hx).2

theorem leads_alters (h : p.Named) {x : SchemaObject} (hx : x ∈ objects p.after)
    (haside : ∀ y ∈ objects p.after, y ≠ x → Aside p name y) :
    (watchAt name).Leads o (Step.statements p.alters) o' ↔
      (watchAt name).Leads o (Step.statements (p.alterSteps x)) o' := by
  rw [alters, Step.statements_flatMap, Watch.leads_flatMap_of_mem hx h.nodup_objects fun y hy hne => ?_]
  exact h.silent_alterSteps hy (haside y hy hne).1 (haside y hy hne).2

-- An index that its table did not have is created with the changes of the table.
theorem leads_alterSteps_of_fresh (h : p.Named) {t u : CreateTable}
    (ht : .table t ∈ objects p.before) (hu : .table u ∈ objects p.after)
    (hid : t.name.identity = u.name.identity) (hold : name ∉ (SchemaObject.table t).indexNames)
    (hnew : name ∈ (SchemaObject.table u).indexNames) :
    (watchAt name).Leads o (Step.statements (p.alterSteps (.table u))) o' ↔
      o = none ∧ o' = (SchemaObject.table u).indexEntries.lookup name := by
  have hq := h.tablePair?_eq_some ht hid rfl
  obtain ⟨hr, ho, hn⟩ := h.steps_of_tablePair? hu hq
  rw [alterSteps_of_some hq, TablePair.leads_steps_of_gains (h.unhinted hq) ho hn hr]
  · rfl
  · rw [TablePair.loses_iff ho]
    exact fun hl => hold hl.1
  · rw [TablePair.gains_iff ho hn]
    exact ⟨hnew, fun hs => hold ((TablePair.indexNames_iff_of_same ho hn hs).mpr hnew)⟩

-- A new object brings its index when it is created. The changes leave the index alone.
theorem leads_of_created (h : p.Named) {y : SchemaObject} (hy : y ∈ objects p.after)
    (hname : name ∈ y.indexNames) (hold : p.old? y.key = none)
    (haside : ∀ x ∈ objects p.after, x ≠ y → Aside p name x) :
    (watchAt name).Leads none (Step.statements p.creates ++ Step.statements p.alters)
      (y.indexEntries.lookup name) := by
  rw [Watch.leads_append_of ((h.leads_creates hy hname hold).mpr ⟨rfl, rfl⟩), h.leads_alters hy haside,
    alterSteps_of_old?_eq_none hold]
  exact Watch.leads_nil.mpr rfl

-- An index of its own that was dropped is created again.
theorem leads_alterSteps_of_recreated (h : p.Named) {i j : CreateIndex}
    (hj : .index j ∈ objects p.after) (hold : p.old? (SchemaObject.index j).key = some (.index i))
    (hdropped : p.isDropped (.index i) = true) :
    (watchAt j.name.identity).Leads none (Step.statements (p.alterSteps (.index j)))
      ((SchemaObject.index j).indexEntries.lookup j.name.identity) := by
  obtain ⟨-, hkey⟩ := h.old?_eq_some.mp hold
  have hchanged : p.indexChanged i j = true := by
    rw [indexChanged_eq h.options, bne_iff_ne]
    intro hsame
    rw [h.isDropped_index.mpr ⟨j, hj, (ObjectKey.index.inj hkey).symm, hsame⟩] at hdropped
    cases hdropped
  rw [statements_alterSteps_index, hold]
  simp only [hchanged, if_true]
  exact (leads_statement_of_mem (x := .index j) (mem_own_iff.mpr rfl)).mpr ⟨rfl, rfl⟩

-- A name that no table carries over and no old index of its own keeps is given to whatever has it in
-- the new schema.
theorem leads_of_none (h : p.Named)
    (htables : ∀ x ∈ objects p.after, ∀ q ∈ p.tablePair? x,
      name ∉ (SchemaObject.table q.old).indexNames)
    (hindexes : ∀ i, .index i ∈ objects p.before → i.name.identity = name →
      p.isDropped (.index i) = true) :
    (watchAt name).Leads none (Step.statements p.creates ++ Step.statements p.alters)
      ((holder? p.after name).bind (·.indexEntries.lookup name)) := by
  cases hholder : holder? p.after name with
  | none =>
      have hnone := holder?_eq_none.mp hholder
      rw [Watch.leads_append_of (silent_creates (fun y hy hname => absurd hname (hnone y hy)) none),
        alters, Step.statements_flatMap]
      exact h.silent_alters (fun x hx => hx) (fun x hx => ⟨hnone x hx, htables x hx⟩) none
  | some y =>
      obtain ⟨hy, hname⟩ := h.after.holder?_eq_some.mp hholder
      have honly : ∀ x ∈ objects p.after, name ∈ x.indexNames → x = y := fun x hx hx' =>
        h.after.eq_of_mem_indexNames hx hy hx' hname
      have haside : ∀ x ∈ objects p.after, x ≠ y → Aside p name x := fun x hx hne =>
        ⟨fun hx' => hne (honly x hx hx'), htables x hx⟩
      rw [Option.bind_some]
      cases hold : p.old? y.key with
      | none => exact h.leads_of_created hy hname hold haside
      | some x =>
          have hsilent : (watchAt name).Silent (Step.statements p.creates) :=
            silent_creates fun x hx hx' => by rw [honly x hx hx', hold]; rfl
          rw [Watch.leads_append_of (hsilent none), h.leads_alters hy haside]
          obtain ⟨hx, hkey⟩ := h.old?_eq_some.mp hold
          cases y with
          | table u =>
              cases x with
              | index i => cases hkey
              | table t =>
                  have hid : t.name.identity = u.name.identity := ObjectKey.table.inj hkey
                  have hfresh := htables _ hy _ (h.tablePair?_eq_some hx hid rfl)
                  exact (h.leads_alterSteps_of_fresh hx hy hid hfresh hname).mpr ⟨rfl, rfl⟩
          | index j =>
              cases x with
              | table t => cases hkey
              | index i =>
                  obtain rfl := mem_own_iff.mp hname
                  exact h.leads_alterSteps_of_recreated hy hold
                    (hindexes i hx (ObjectKey.index.inj hkey))

-- What a schema leaves under a name.
def indexAt (s : Script) (name : String) : Option IndexState :=
  (holder? s name).bind (·.indexEntries.lookup name)

theorem indexAt_of_holder {s : Script} {x : SchemaObject} (h : holder? s name = some x) :
    indexAt s name = x.indexEntries.lookup name := by
  rw [indexAt, h, Option.bind_some]

-- An index that is not dropped itself goes with its table.
theorem leads_drops_pass (h : p.Named)
    (hkept : ∀ i, .index i ∈ objects p.before → i.name.identity = name →
      p.isDropped (.index i) = false) :
    (watchAt name).Leads o (Step.statements p.drops) (o.filter fun i =>
      decide (¬(i.table ∈ tableNames p.before ∧ i.table ∉ tableNames p.after))) := by
  have hfilter : (fun i : IndexState => decide (i.table ∉
      ((objects p.before).reverse.filter p.isDropped).filterMap tableName?)) = fun i =>
        decide (¬(i.table ∈ tableNames p.before ∧ i.table ∉ tableNames p.after)) := by
    funext i
    refine decide_eq_decide.mpr (not_congr ?_)
    rw [h.mem_dropped_tables, List.filterMap_reverse, List.mem_reverse]
    rfl
  rw [statements_drops h.options, ← hfilter]
  refine leads_drops p.dialect fun i hi hname => ?_
  obtain ⟨hi, hd⟩ := List.mem_filter.mp hi
  rw [hkept i (List.mem_reverse.mp hi) hname] at hd
  cases hd

-- An index of its own that is dropped has to be there still.
theorem leads_drops_pass_own (h : p.Named) {i : CreateIndex} (hi : .index i ∈ objects p.before)
    (hd : p.isDropped (.index i) = true) :
    (watchAt i.name.identity).Leads (some (.of i)) (Step.statements p.drops) o' ↔
      Leaves p.before p.after i ∧ o' = none := by
  obtain ⟨pre, post, hsplit⟩ := List.append_of_mem hi
  have hkeys := h.before.keys_nodup
  rw [hsplit, List.map_append, List.map_cons, List.nodup_append, List.nodup_cons] at hkeys
  obtain ⟨-, ⟨hpost, -⟩, hpre⟩ := hkeys
  have hotherPost : ∀ j, .index j ∈ post → j.name.identity ≠ i.name.identity := fun j hj hname =>
    hpost (List.mem_map.mpr ⟨_, hj, congrArg ObjectKey.index hname⟩)
  have hotherPre : ∀ j, .index j ∈ pre → j.name.identity ≠ i.name.identity := fun j hj hname =>
    hpre _ (List.mem_map_of_mem hj) (SchemaObject.index i).key (by simp)
      (congrArg ObjectKey.index hname)
  have hdrop : (objects p.before).dropWhile (· ≠ .index i) = .index i :: post := by
    rw [hsplit, List.dropWhile_append_of_pos fun x hx => ?_, List.dropWhile_cons_of_neg (by simp)]
    refine decide_eq_true fun heq => ?_
    exact hotherPre i (heq ▸ hx) rfl
  have hscript : (objects p.before).reverse.filter p.isDropped = post.reverse.filter p.isDropped ++
      .index i :: pre.reverse.filter p.isDropped := by
    simp [hsplit, List.filter_append, hd]
  have hleaves : Leaves p.before p.after i ↔
      i.table.identity ∉ (post.reverse.filter p.isDropped).filterMap tableName? := by
    have hcons : (SchemaObject.index i :: post).filterMap tableName? = post.filterMap tableName? :=
      List.filterMap_cons_none rfl
    rw [h.mem_dropped_tables, List.filterMap_reverse, List.mem_reverse, Leaves, hdrop, hcons]
    tauto
  rw [statements_drops h.options, hscript, hleaves]
  refine leads_drops_own p.dialect (fun j hj => ?_) fun j hj => ?_
  · exact hotherPost j (List.mem_reverse.mp (List.mem_filter.mp hj).1)
  · exact hotherPre j (List.mem_reverse.mp (List.mem_filter.mp hj).1)

theorem leads_behind_drops (h : p.Named) {o₁ : Option IndexState}
    (hdrops : (watchAt name).Leads o (Step.statements p.drops) o₁) :
    (watchAt name).Leads o (Step.statements p.steps) o' ↔
      (watchAt name).Leads o₁ (Step.statements p.creates ++ Step.statements p.alters) o' := by
  rw [statements_steps_of_default h.options, Watch.leads_append_of hdrops]

-- An index that only the new schema has.
theorem leads_of_fresh (h : p.Named) (hold : holder? p.before name = none) :
    (watchAt name).Leads none (Step.statements p.steps) (indexAt p.after name) := by
  have hnone := holder?_eq_none.mp hold
  have hindexes : ∀ i, .index i ∈ objects p.before → i.name.identity ≠ name := by
    rintro i hi rfl
    exact hnone _ hi (by simp [indexNames, indexEntries])
  rw [h.leads_behind_drops (h.leads_drops_pass fun i hi hname => absurd hname (hindexes i hi))]
  refine h.leads_of_none (fun x hx q hq => ?_) fun i hi hname => absurd hname (hindexes i hi)
  obtain ⟨t, u, rfl, rfl, ht, -⟩ := h.of_tablePair? hq
  exact hnone _ ht

section Own

variable {i : CreateIndex} (hi : .index i ∈ objects p.before)
include hi

-- No table has the name of an index of its own.
theorem notMem_of_own (h : p.Named) : ∀ x ∈ objects p.after, ∀ q ∈ p.tablePair? x,
    i.name.identity ∉ (SchemaObject.table q.old).indexNames := by
  intro x hx q hq hm
  obtain ⟨t, u, rfl, rfl, ht, -⟩ := h.of_tablePair? hq
  cases h.before.eq_of_mem_indexNames ht hi hm (by simp [indexNames, indexEntries])

theorem leads_of_own_dropped (h : p.Named) (hd : p.isDropped (.index i) = true) :
    (watchAt i.name.identity).Leads (some (.of i)) (Step.statements p.steps)
      (indexAt p.after i.name.identity) ↔ Leaves p.before p.after i := by
  have hindexes : ∀ j, .index j ∈ objects p.before → j.name.identity = i.name.identity →
      p.isDropped (.index j) = true := by
    intro j hj hname
    have hsame : SchemaObject.index j = .index i :=
      List.inj_on_of_nodup_map h.before.keys_nodup hj hi (congrArg ObjectKey.index hname)
    rw [hsame, hd]
  by_cases hleaves : Leaves p.before p.after i
  · refine iff_of_true ?_ hleaves
    rw [h.leads_behind_drops ((h.leads_drops_pass_own hi hd).mpr ⟨hleaves, rfl⟩)]
    exact h.leads_of_none (h.notMem_of_own hi) hindexes
  · refine iff_of_false (fun hleads => hleaves ?_) hleaves
    rw [statements_steps_of_default h.options, Watch.leads_append] at hleads
    obtain ⟨o', hdrops, -⟩ := hleads
    exact ((h.leads_drops_pass_own hi hd).mp hdrops).1

theorem leads_of_own_kept (h : p.Named) {j : CreateIndex} (hj : .index j ∈ objects p.after)
    (hname : j.name.identity = i.name.identity) (hsame : i.identity = j.identity) :
    (watchAt i.name.identity).Leads (some (.of i)) (Step.statements p.steps) (some (.of j)) ↔
      IndexState.of i = .of j ∧
        (i.table.identity ∈ tableNames p.before → i.table.identity ∈ tableNames p.after) := by
  have hkept : ∀ k, .index k ∈ objects p.before → k.name.identity = i.name.identity →
      p.isDropped (.index k) = false := by
    intro k hk hkname
    have hki : SchemaObject.index k = .index i :=
      List.inj_on_of_nodup_map h.before.keys_nodup hk hi (congrArg ObjectKey.index hkname)
    rw [hki]
    exact h.isDropped_index.mpr ⟨j, hj, hname, hsame⟩
  have hold : p.old? (SchemaObject.index j).key = some (.index i) :=
    h.old?_eq_some.mpr ⟨hi, congrArg ObjectKey.index hname.symm⟩
  have honly : ∀ x ∈ objects p.after, i.name.identity ∈ x.indexNames → x = .index j := fun x hx hx' =>
    h.after.eq_of_mem_indexNames hx hj hx' (by simp [indexNames, indexEntries, hname])
  have hcreates : (watchAt i.name.identity).Silent (Step.statements p.creates) :=
    silent_creates fun x hx hx' => by rw [honly x hx hx', hold]; rfl
  have halters : (watchAt i.name.identity).Silent (Step.statements p.alters) := by
    intro o
    rw [h.leads_alters hj fun x hx hne =>
      ⟨fun hx' => hne (honly x hx hx'), h.notMem_of_own hi x hx⟩, statements_alterSteps_index, hold]
    simp [indexChanged_eq h.options, hsame]
  rw [h.leads_behind_drops (h.leads_drops_pass hkept), (hcreates.append halters).leads_iff]
  by_cases hgone : i.table.identity ∈ tableNames p.before ∧ i.table.identity ∉ tableNames p.after
  · refine iff_of_false ?_ fun hstays => hgone.2 (hstays.2 hgone.1)
    simp [Option.filter, IndexState.of, hgone]
  · have hfilter : (some (IndexState.of i)).filter (fun i => decide
        (¬(i.table ∈ tableNames p.before ∧ i.table ∉ tableNames p.after))) = some (.of i) := by
      simpa [Option.filter, IndexState.of] using hgone
    rw [hfilter, Option.some.injEq]
    tauto

end Own

section Inline

variable {t : CreateTable} (ht : .table t ∈ objects p.before)
  (hname : name ∈ (SchemaObject.table t).indexNames)
include ht hname

theorem not_own_of_inline (h : p.Named) :
    ∀ i, .index i ∈ objects p.before → i.name.identity ≠ name := by
  rintro i hi rfl
  cases h.before.eq_of_mem_indexNames ht hi hname (by simp [indexNames, indexEntries])

-- Only the new version of its table knows the old index.
theorem notMem_of_inline (h : p.Named) {x : SchemaObject} (hx : x.tableName? ≠ some t.name.identity) :
    ∀ q ∈ p.tablePair? x, name ∉ (SchemaObject.table q.old).indexNames := by
  intro q hq hm
  obtain ⟨t', u, rfl, rfl, ht', hid⟩ := h.of_tablePair? hq
  cases h.before.eq_of_mem_indexNames ht ht' hname hm
  exact hx (congrArg some hid.symm)

variable {v : IndexState} (hv : v.table = t.name.identity)
include hv

theorem leads_drops_inline (h : p.Named) :
    (watchAt name).Leads (some v) (Step.statements p.drops)
      (if t.name.identity ∈ tableNames p.after then some v else none) := by
  have hdrops := h.leads_drops_pass (o := some v)
    fun i hi hown => absurd hown (h.not_own_of_inline ht hname i hi)
  have hthere : t.name.identity ∈ tableNames p.before := mem_tableNames.mpr ⟨t, ht, rfl⟩
  by_cases hstays : t.name.identity ∈ tableNames p.after <;>
    simpa [Option.filter, hv, hthere, hstays] using hdrops

-- An index goes with its table, and then the name is free.
theorem leads_of_inline_gone (h : p.Named) (hgone : t.name.identity ∉ tableNames p.after) :
    (watchAt name).Leads (some v) (Step.statements p.steps) (indexAt p.after name) := by
  have hdrops := h.leads_drops_inline ht hname hv
  rw [if_neg hgone] at hdrops
  rw [h.leads_behind_drops hdrops]
  refine h.leads_of_none (fun x hx => h.notMem_of_inline ht hname fun hid => hgone ?_)
    fun i hi hown => absurd hown (h.not_own_of_inline ht hname i hi)
  exact List.mem_filterMap.mpr ⟨x, hx, hid⟩

section Stays

variable {t' : CreateTable} (ht' : .table t' ∈ objects p.after)
  (hid : t.name.identity = t'.name.identity)
include ht' hid

theorem leads_behind_stay (h : p.Named) : (watchAt name).Leads (some v) (Step.statements p.steps) o' ↔
    (watchAt name).Leads (some v) (Step.statements p.creates ++ Step.statements p.alters) o' := by
  have hstays : t.name.identity ∈ tableNames p.after :=
    mem_tableNames.mpr ⟨t', ht', hid.symm⟩
  have hdrops := h.leads_drops_inline ht hname hv
  rw [if_pos hstays] at hdrops
  exact h.leads_behind_drops hdrops

omit hv in
theorem notMem_of_stay (h : p.Named) {x : SchemaObject} (hx : x ∈ objects p.after)
    (hne : x ≠ .table t') : ∀ q ∈ p.tablePair? x, name ∉ (SchemaObject.table q.old).indexNames := by
  refine h.notMem_of_inline ht hname fun hxid => hne ?_
  refine List.inj_on_of_nodup_map h.after.keys_nodup hx ht' ?_
  cases x with
  | index i => cases hxid
  | table u => exact congrArg ObjectKey.table ((Option.some.inj hxid).trans hid)

-- The index is dropped with its table changed, unless it is the same there.
theorem leads_alterSteps_inline (h : p.Named) (hnew : name ∉ (SchemaObject.table t').indexNames) :
    (watchAt name).Leads (some v) (Step.statements (p.alterSteps (.table t'))) none := by
  have hq := h.tablePair?_eq_some ht hid rfl
  obtain ⟨hr, ho, hn⟩ := h.steps_of_tablePair? ht' hq
  have hunhinted := h.unhinted hq
  rw [alterSteps_of_some hq, TablePair.leads_steps_of_loses hunhinted ho hr _ (hv.trans hid)]
  · refine TablePair.silent_addConstraintSteps hunhinted ho hn ?_ none
    rw [TablePair.gains_iff ho hn]
    exact fun hg => hnew hg.1
  · rw [TablePair.loses_iff ho]
    exact ⟨hname, fun hsame => hnew ((TablePair.indexNames_iff_of_same ho hn hsame).mp hname)⟩

theorem leads_of_inline_dropped (h : p.Named) (hholder : holder? p.after name = none) :
    (watchAt name).Leads (some v) (Step.statements p.steps) none := by
  have hnone := holder?_eq_none.mp hholder
  rw [h.leads_behind_stay ht hname hv ht' hid,
    Watch.leads_append_of (silent_creates (fun y hy hny => absurd hny (hnone y hy)) _),
    h.leads_alters ht' fun x hx hne => ⟨hnone x hx, h.notMem_of_stay ht hname ht' hid hx hne⟩]
  exact h.leads_alterSteps_inline ht hname hv ht' hid (hnone _ ht')

-- New objects come ahead of the changes of tables.
theorem not_leads_of_fresh (h : p.Named) {y : SchemaObject} (hy : y ∈ objects p.after)
    (hny : name ∈ y.indexNames) (hfresh : p.old? y.key = none) :
    ¬(watchAt name).Leads (some v) (Step.statements p.steps) o' := by
  rw [h.leads_behind_stay ht hname hv ht' hid, Watch.leads_append]
  rintro ⟨x, hcreates, -⟩
  cases ((h.leads_creates hy hny hfresh).mp hcreates).1

theorem leads_of_inline_kept (h : p.Named) (hnew : name ∈ (SchemaObject.table t').indexNames) :
    (watchAt name).Leads (some v) (Step.statements p.steps)
        ((SchemaObject.table t').indexEntries.lookup name) ↔
      (TablePair.SameAt t t' name →
        some v = (SchemaObject.table t').indexEntries.lookup name) := by
  have hq := h.tablePair?_eq_some ht hid rfl
  obtain ⟨hr, ho, hn⟩ := h.steps_of_tablePair? ht' hq
  have hunhinted := h.unhinted hq
  have honly : ∀ x ∈ objects p.after, name ∈ x.indexNames → x = .table t' := fun x hx hx' =>
    h.after.eq_of_mem_indexNames hx ht' hx' hnew
  have hold : p.old? (SchemaObject.table t').key = some (.table t) :=
    h.old?_eq_some.mpr ⟨ht, congrArg ObjectKey.table hid⟩
  have hcreates : (watchAt name).Silent (Step.statements p.creates) :=
    silent_creates fun x hx hx' => by rw [honly x hx hx', hold]; rfl
  rw [h.leads_behind_stay ht hname hv ht' hid, Watch.leads_append_of (hcreates _),
    h.leads_alters ht' fun x hx hne =>
      ⟨fun hx' => hne (honly x hx hx'), h.notMem_of_stay ht hname ht' hid hx hne⟩,
    alterSteps_of_some hq]
  by_cases hsame : TablePair.SameAt t t' name
  · rw [(TablePair.silent_steps hunhinted ho hn hr _ _).leads_iff]
    · exact ⟨fun heq _ => heq, fun heq => heq hsame⟩
    · rw [TablePair.loses_iff ho]
      exact fun hl => hl.2 hsame
    · rw [TablePair.gains_iff ho hn]
      exact fun hg => hg.2 hsame
  · refine iff_of_true ?_ fun hs => absurd hs hsame
    rw [TablePair.leads_steps_of_loses hunhinted ho hr _ (hv.trans hid),
      TablePair.leads_addConstraintSteps hunhinted ho hn]
    · exact ⟨rfl, rfl⟩
    · rw [TablePair.gains_iff ho hn]
      exact ⟨hnew, hsame⟩
    · rw [TablePair.loses_iff ho]
      exact ⟨hname, hsame⟩

omit ht hname hv in
theorem tableName_mem_iff (h : p.Named) {os : List SchemaObject}
    (hos : ∀ x ∈ os, x ∈ objects p.after) :
    t.name.identity ∈ os.filterMap tableName? ↔ SchemaObject.table t' ∈ os := by
  rw [mem_filterMap_tableName?]
  constructor
  · rintro ⟨u, hu, huid⟩
    have hkey : (SchemaObject.table u).key = (SchemaObject.table t').key :=
      congrArg ObjectKey.table (huid.trans hid)
    exact List.inj_on_of_nodup_map h.after.keys_nodup (hos _ hu) ht' hkey ▸ hu
  · exact fun hm => ⟨t', hm, hid.symm⟩

-- An index of its own that takes the name over is new, and so it comes too early.
theorem not_leads_of_inline_own (h : p.Named) {j : CreateIndex} (hj : .index j ∈ objects p.after)
    (hjname : name ∈ (SchemaObject.index j).indexNames) :
    ¬(watchAt name).Leads (some v) (Step.statements p.steps) o' := by
  refine h.not_leads_of_fresh ht hname hv ht' hid hj hjname (h.old?_eq_none.mpr fun x hx hkey => ?_)
  cases x with
  | table x => cases hkey
  | index i =>
      refine h.not_own_of_inline ht hname i hx ?_
      exact (ObjectKey.index.inj hkey).trans (mem_own_iff.mp hjname).symm

theorem not_leads_of_inline_created (h : p.Named) {u : CreateTable} (hu : .table u ∈ objects p.after)
    (huname : name ∈ (SchemaObject.table u).indexNames)
    (hcreated : u.name.identity ∉ tableNames p.before) :
    ¬(watchAt name).Leads (some v) (Step.statements p.steps) o' := by
  refine h.not_leads_of_fresh ht hname hv ht' hid hu huname
    (h.old?_eq_none.mpr fun x hx hkey => hcreated ?_)
  cases x with
  | index i => cases hkey
  | table u₀ => exact mem_tableNames.mpr ⟨u₀, hx, ObjectKey.table.inj hkey⟩

-- Another table has the index in the new schema. It gets it when its turn comes.
theorem leads_of_inline_moved (h : p.Named) {u₀ u : CreateTable} (hu₀ : .table u₀ ∈ objects p.before)
    (hu : .table u ∈ objects p.after) (huid : u₀.name.identity = u.name.identity)
    (hne : t.name.identity ≠ u.name.identity) (hnew : name ∈ (SchemaObject.table u).indexNames) :
    (watchAt name).Leads (some v) (Step.statements p.steps)
        ((SchemaObject.table u).indexEntries.lookup name) ↔
      t.name.identity ∈ ((objects p.after).takeWhile (· ≠ .table u)).filterMap tableName? := by
  have honly : ∀ x ∈ objects p.after, name ∈ x.indexNames → x = .table u := fun x hx hx' =>
    h.after.eq_of_mem_indexNames hx hu hx' hnew
  have htu : SchemaObject.table t' ≠ .table u := fun heq =>
    hne (hid.trans (congrArg (·.name.identity) (SchemaObject.table.inj heq)))
  have hfresh : name ∉ (SchemaObject.table u₀).indexNames :=
    h.notMem_of_stay ht hname ht' hid hu htu.symm _ (h.tablePair?_eq_some hu₀ huid rfl)
  have hgains : ∀ {o o' : Option IndexState},
      (watchAt name).Leads o (Step.statements (p.alterSteps (.table u))) o' ↔
        o = none ∧ o' = (SchemaObject.table u).indexEntries.lookup name :=
    h.leads_alterSteps_of_fresh hu₀ hu huid hfresh hnew
  have hold : p.old? (SchemaObject.table u).key = some (.table u₀) :=
    h.old?_eq_some.mpr ⟨hu₀, congrArg ObjectKey.table huid⟩
  have hcreates : (watchAt name).Silent (Step.statements p.creates) :=
    silent_creates fun x hx hx' => by rw [honly x hx hx', hold]; rfl
  obtain ⟨l, r, hsplit⟩ := List.append_of_mem hu
  have hl : ∀ x ∈ l, x ∈ objects p.after := fun x hx => by simp [hsplit, hx]
  have hr : ∀ x ∈ r, x ∈ objects p.after := fun x hx => by simp [hsplit, hx]
  have hnodup := h.nodup_objects
  rw [hsplit, List.nodup_append, List.nodup_cons] at hnodup
  obtain ⟨hlnodup, ⟨hur, -⟩, hlr⟩ := hnodup
  have hul : ∀ x ∈ l, x ≠ .table u := fun x hx => hlr x hx _ (by simp)
  have haside : ∀ x ∈ objects p.after, x ≠ .table u → x ≠ .table t' → Aside p name x :=
    fun x hx hxu hxt => ⟨fun hx' => hxu (honly x hx hx'), h.notMem_of_stay ht hname ht' hid hx hxt⟩
  have htake : (objects p.after).takeWhile (· ≠ .table u) = l := by
    rw [hsplit, List.takeWhile_append_of_pos fun x hx => decide_eq_true (hul x hx),
      List.takeWhile_cons_of_neg (by simp), List.append_nil]
  rw [htake, h.tableName_mem_iff ht' hid hl, h.leads_behind_stay ht hname hv ht' hid,
    Watch.leads_append_of (hcreates _), alters, Step.statements_flatMap, hsplit, List.flatMap_append,
    List.flatMap_cons]
  by_cases hmem : SchemaObject.table t' ∈ l
  -- The index is dropped in front of the new table.
  · have hleft : (watchAt name).Leads (some v)
        (l.flatMap fun x => Step.statements (p.alterSteps x)) none := by
      rw [Watch.leads_flatMap_of_mem hmem hlnodup fun x hx hxt => ?_]
      · exact h.leads_alterSteps_inline ht hname hv ht' hid fun hx' => htu (honly _ ht' hx')
      · have hxaside := haside x (hl x hx) (hul x hx) hxt
        exact h.silent_alterSteps (hl x hx) hxaside.1 hxaside.2
    have hright := h.silent_alters hr fun x hx =>
      haside x (hr x hx) (fun he => hur (he ▸ hx)) fun he => hlr _ hmem _ (by simp [← he, hx]) rfl
    rw [Watch.leads_append_of hleft, hright.leads_append, hgains]
    exact iff_of_true ⟨rfl, rfl⟩ hmem
  -- It is there when the new table creates it.
  · have hleft := h.silent_alters hl fun x hx =>
      haside x (hl x hx) (hul x hx) fun he => hmem (he ▸ hx)
    rw [Watch.leads_append_of (hleft _), Watch.leads_append]
    refine iff_of_false ?_ hmem
    rintro ⟨o, hfirst, -⟩
    cases (hgains.mp hfirst).1

-- An old index in a table that stays.
theorem leads_iff_of_inline_stays (h : p.Named)
    (hold : holder? p.before name = some (.table t))
    (hlookup : (SchemaObject.table t).indexEntries.lookup name = some v) :
    (watchAt name).Leads (some v) (Step.statements p.steps) (indexAt p.after name) ↔
      Handover p.before p.after name := by
  have hstays : t.name.identity ∈ tableNames p.after := mem_tableNames.mpr ⟨t', ht', hid.symm⟩
  unfold Handover
  rw [hold]
  cases hnew : holder? p.after name with
  | none =>
      refine iff_of_true ?_ trivial
      rw [indexAt, hnew]
      exact h.leads_of_inline_dropped ht hname hv ht' hid hnew
  | some y =>
      obtain ⟨hy, hyname⟩ := h.after.holder?_eq_some.mp hnew
      rw [indexAt_of_holder hnew]
      cases y with
      | index j =>
          exact iff_of_false (h.not_leads_of_inline_own ht hname hv ht' hid hy hyname)
            fun hgone => hgone hstays
      | table u =>
          by_cases hsame : t.name.identity = u.name.identity
          · simp only [if_pos hsame]
            rw [hlookup]
            exact h.leads_of_inline_kept ht hname hv hy hsame hyname
          · simp only [if_neg hsame]
            by_cases hu : u.name.identity ∈ tableNames p.before
            · obtain ⟨u₀, hu₀, huid⟩ := mem_tableNames.mp hu
              rw [h.leads_of_inline_moved ht hname hv ht' hid hu₀ hy huid hsame hyname]
              exact ⟨fun hplace _ => ⟨hu, hplace⟩, fun hall => (hall hstays).2⟩
            · exact iff_of_false (h.not_leads_of_inline_created ht hname hv ht' hid hy hyname hu)
                fun hall => hu (hall hstays).1

end Stays

end Inline

theorem lookup_own (i : CreateIndex) :
    (SchemaObject.index i).indexEntries.lookup i.name.identity = some (.of i) := by
  simp [indexEntries]

-- An old index of its own.
theorem leads_iff_of_own (h : p.Named) {i : CreateIndex}
    (hold : holder? p.before name = some (.index i)) :
    (watchAt name).Leads (indexAt p.before name) (Step.statements p.steps) (indexAt p.after name) ↔
      Handover p.before p.after name := by
  obtain ⟨hi, hname⟩ := h.before.holder?_eq_some.mp hold
  obtain rfl := mem_own_iff.mp hname
  rw [indexAt_of_holder hold, lookup_own]
  -- An index that is not the same in the new schema is dropped.
  have hdropped : (∀ j, holder? p.after i.name.identity = some (.index j) →
      i.identity ≠ j.identity) → p.isDropped (.index i) = true := by
    intro hne
    by_contra hd
    obtain ⟨j, hj, hjname, hsame⟩ := h.isDropped_index.mp (by simpa using hd)
    exact hne j (h.after.holder?_eq_some.mpr ⟨hj, mem_own_iff.mpr hjname.symm⟩) hsame
  unfold Handover
  rw [hold]
  cases hnew : holder? p.after i.name.identity with
  | none => exact h.leads_of_own_dropped hi (hdropped fun j hj => by rw [hnew] at hj; cases hj)
  | some y =>
      cases y with
      | table u => exact h.leads_of_own_dropped hi (hdropped fun j hj => by rw [hnew] at hj; cases hj)
      | index j =>
          obtain ⟨hj, hjname⟩ := h.after.holder?_eq_some.mp hnew
          have hjname := (mem_own_iff.mp hjname).symm
          by_cases hsame : i.identity = j.identity
          · simp only [if_pos hsame]
            rw [indexAt_of_holder hnew, ← hjname, lookup_own, hjname]
            exact h.leads_of_own_kept hi hj hjname hsame
          · simp only [if_neg hsame]
            refine h.leads_of_own_dropped hi (hdropped fun k hk => ?_)
            cases hnew.symm.trans hk
            exact hsame

-- The name of an index in a table is free when the table goes.
theorem handover_of_gone (h : p.Named) {t : CreateTable}
    (hold : holder? p.before name = some (.table t)) (hgone : t.name.identity ∉ tableNames p.after) :
    Handover p.before p.after name := by
  unfold Handover
  rw [hold]
  cases hnew : holder? p.after name with
  | none => trivial
  | some y =>
      obtain ⟨hy, -⟩ := h.after.holder?_eq_some.mp hnew
      cases y with
      | index j => exact hgone
      | table u =>
          have hne : t.name.identity ≠ u.name.identity := fun hid =>
            hgone (mem_tableNames.mpr ⟨u, hy, hid.symm⟩)
          simp only [if_neg hne]
          exact fun hstays => absurd hstays hgone

-- An old index in a table.
theorem leads_iff_of_inline (h : p.Named) {t : CreateTable}
    (hold : holder? p.before name = some (.table t)) :
    (watchAt name).Leads (indexAt p.before name) (Step.statements p.steps) (indexAt p.after name) ↔
      Handover p.before p.after name := by
  obtain ⟨ht, hname⟩ := h.before.holder?_eq_some.mp hold
  obtain ⟨v, hv⟩ := Option.isSome_iff_exists.mp (lookup_isSome_iff.mpr hname)
  have hvtable : v.table = t.name.identity := by
    obtain ⟨pre, post, hentries, -⟩ := List.lookup_eq_some_iff.mp hv
    rcases indexEntries_table (o := .table t) (e := (name, v)) (by simp [hentries]) with
      ⟨t', heq, htable⟩ | ⟨i, heq, -⟩
    · cases heq
      exact htable
    · cases heq
  rw [indexAt_of_holder hold, hv]
  by_cases hstays : t.name.identity ∈ tableNames p.after
  · obtain ⟨t', ht', hid⟩ := mem_tableNames.mp hstays
    exact h.leads_iff_of_inline_stays ht hname hvtable ht' hid.symm hold hv
  · exact iff_of_true (h.leads_of_inline_gone ht hname hvtable hstays) (h.handover_of_gone hold hstays)

theorem leads_iff (h : p.Named) (name : String) :
    (watchAt name).Leads (indexAt p.before name) (Step.statements p.steps) (indexAt p.after name) ↔
      Handover p.before p.after name := by
  cases hold : holder? p.before name with
  | none =>
      refine iff_of_true ?_ ?_
      · rw [indexAt, hold]
        exact h.leads_of_fresh hold
      · unfold Handover
        rw [hold]
        trivial
  | some x =>
      cases x with
      | index i => exact h.leads_iff_of_own hold
      | table t => exact h.leads_iff_of_inline hold

end Named

end SchemaPair

-- Every index is created where there is none and dropped where there is one, and the indexes of the
-- new schema are left at the end, exactly if every old name can be handed over.
theorem diff_indexes_iff {d : Dialect} {before after m : Script} (hbefore : Distinct before)
    (hafter : Distinct after) (h : diff d .default (some before) (some after) = .ok m) :
    Indexes.watch.Leads (.of before) m (.of after) ↔
      ∀ name ∈ (objects before).flatMap indexNames, Handover before after name := by
  obtain ⟨hrefusal, rfl, -⟩ := diff_some_eq_ok h
  obtain ⟨hb, ha, -⟩ := SchemaPair.refusal?_of_steps hrefusal
  have hnamed : SchemaPair.Named ⟨d, .default, before, after⟩ := ⟨rfl, hbefore, hafter, hrefusal⟩
  rw [Indexes.leads_iff]
  simp only [of_eq_holder (map_statement_of_refusal? hb), of_eq_holder (map_statement_of_refusal? ha)]
  constructor
  · exact fun hall name _ => (hnamed.leads_iff name).mp (hall name)
  · intro hall name
    by_cases hname : name ∈ (objects before).flatMap indexNames
    · exact (hnamed.leads_iff name).mpr (hall name hname)
    · have hold : holder? before name = none := holder?_eq_none.mpr fun x hx hxn =>
        hname (List.mem_flatMap.mpr ⟨x, hx, hxn⟩)
      refine (hnamed.leads_iff name).mpr ?_
      unfold Handover
      rw [show holder? (SchemaPair.mk d .default before after).before name = none from hold]
      trivial

-- A table of one column, with an index over it or without.
def indexed (table column : String) (indexes : List String) : Statement :=
  .createTable ⟨false, .ofIdent (.bare table),
    [⟨.bare column, ⟨"INT", [], [], 0⟩, false, none, false⟩],
    indexes.map fun name => ⟨.bare name, .index false [.ascending (.bare column)]⟩, []⟩

-- An index moves to a later table.
theorem diff_indexes_moved : ∃ m,
    diff .mysql .default (some [indexed "t" "a" ["i"], indexed "u" "b" []])
      (some [indexed "t" "a" [], indexed "u" "b" ["i"]]) = .ok m ∧
    Indexes.watch.Leads (.of [indexed "t" "a" ["i"], indexed "u" "b" []]) m
      (.of [indexed "t" "a" [], indexed "u" "b" ["i"]]) := by
  have hdiff : diff .mysql .default (some [indexed "t" "a" ["i"], indexed "u" "b" []])
      (some [indexed "t" "a" [], indexed "u" "b" ["i"]]) =
        .ok [.dropIndex false (.ofIdent (.bare "i")) (some (.ofIdent (.bare "t"))),
          .createIndex ⟨false, false, .ofIdent (.bare "i"), .ofIdent (.bare "u"), none,
            [.ascending (.bare "b")], none⟩] := by
    decide +kernel
  exact ⟨_, hdiff, (diff_indexes_iff (by decide) (by decide) hdiff).mpr (by decide)⟩

def ownIndex : Statement :=
  .createIndex ⟨false, false, .ofIdent (.bare "i"), .ofIdent (.bare "t"), none,
    [.ascending (.bare "a")], none⟩

-- The index of its own is created while the one in the table is there.
theorem not_leads_ownIndex : ∃ m,
    Script.parse .mysql "CREATE TABLE t (a INT, INDEX i (a));" = .ok [indexed "t" "a" ["i"]] ∧
    Script.parse .mysql "CREATE TABLE t (a INT); CREATE INDEX i ON t (a);" =
      .ok [indexed "t" "a" [], ownIndex] ∧
    Distinct [indexed "t" "a" ["i"]] ∧ Distinct [indexed "t" "a" [], ownIndex] ∧
    diff .mysql .default (some [indexed "t" "a" ["i"]]) (some [indexed "t" "a" [], ownIndex]) =
      .ok m ∧
    ¬Indexes.watch.Leads (.of [indexed "t" "a" ["i"]]) m
      (.of [indexed "t" "a" [], ownIndex]) := by
  have hdiff : diff .mysql .default (some [indexed "t" "a" ["i"]])
      (some [indexed "t" "a" [], ownIndex]) = .ok [ownIndex,
        .dropIndex false (.ofIdent (.bare "i")) (some (.ofIdent (.bare "t")))] := by
    decide +kernel
  refine ⟨_, by decide +kernel, by decide +kernel, by decide, by decide, hdiff, fun h => ?_⟩
  have hadmits : (Indexes.of [indexed "t" "a" ["i"]]) "i" = none := h.1.1 "i" rfl
  exact absurd hadmits (by decide)

end SchemaDiff.Migration
