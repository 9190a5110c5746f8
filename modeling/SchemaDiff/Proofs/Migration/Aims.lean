import SchemaDiff.Proofs.Catalog.Effects
import SchemaDiff.Proofs.Migration.Reasons

namespace SchemaDiff

namespace Aim

-- The table that comes or is changed.
def table? : Aim → Option String
  | .createTable table | .addColumn table _ | .dropColumn table _ | .setDataType table _
  | .setDefault table _ | .setNull table _ | .modifyColumn table _ | .addConstraint table _
  | .dropConstraint table _ => some table
  | .rename | .dropTable _ | .createIndex _ | .dropIndex _ => none

-- The column, constraint or index.
def member? : Aim → Option String
  | .addColumn _ name | .dropColumn _ name | .setDataType _ name | .setDefault _ name
  | .setNull _ name | .modifyColumn _ name | .addConstraint _ name | .dropConstraint _ name
  | .createIndex name | .dropIndex name => some name
  | .rename | .createTable _ | .dropTable _ => none

-- The place of the aim among those for one table.
def phase : Aim → ℕ
  | .dropConstraint _ _ | .dropIndex _ => 0
  | .dropColumn _ _ => 1
  | .setDataType _ _ | .setDefault _ _ | .setNull _ _ | .modifyColumn _ _ => 2
  | .addColumn _ _ => 3
  | .addConstraint _ _ | .createIndex _ => 4
  | .rename | .createTable _ | .dropTable _ => 5

end Aim

namespace Migration

open SchemaObject

-- Members with names of their own give lists that share nothing, if what they give tells the name.
theorem nodup_flatMap_of_name {α β κ : Type} {name : α → κ} {f : α → List β} {xs : List α}
    (hxs : (xs.map name).Nodup) (hf : ∀ x ∈ xs, (f x).Nodup)
    (hname : ∀ x ∈ xs, ∀ y ∈ xs, ∀ b ∈ f x, b ∈ f y → name x = name y) :
    (xs.flatMap f).Nodup := by
  refine List.nodup_flatMap.mpr ⟨hf, ?_⟩
  refine (List.pairwise_map.mp hxs).imp_of_mem fun hx hy hne b hb hb' => ?_
  exact hne (hname _ hx _ hy b hb hb')

-- Aims of some phases in a row, each of them once.
structure Phased (first behind : ℕ) (aims : List Aim) : Prop where
  nodup : aims.Nodup
  ge : ∀ a ∈ aims, first ≤ a.phase
  lt : ∀ a ∈ aims, a.phase < behind

theorem Phased.append {i j k : ℕ} {l l' : List Aim} (h : Phased i j l) (h' : Phased j k l')
    (hij : i ≤ j) (hjk : j ≤ k) : Phased i k (l ++ l') where
  nodup := by
    refine List.nodup_append.mpr ⟨h.nodup, h'.nodup, ?_⟩
    rintro a ha b hb rfl
    exact absurd (h.lt a ha) (Nat.not_lt.mpr (h'.ge a hb))
  ge := by
    intro a ha
    rcases List.mem_append.mp ha with ha | ha
    · exact h.ge a ha
    · exact hij.trans (h'.ge a ha)
  lt := by
    intro a ha
    rcases List.mem_append.mp ha with ha | ha
    · exact (h.lt a ha).trans_le hjk
    · exact h'.lt a ha

def Step.aims (steps : List Step) : List Aim :=
  (Step.statements steps).map Statement.aim

namespace Step

@[simp] theorem aims_nil : aims [] = [] := rfl

@[simp] theorem aims_alter (table : ObjectName) (change : TableChange) :
    aims (Step.alter table change) = [change.aim table.identity] := rfl

@[simp] theorem aims_announce (s : Statement) : aims (announce s) = [s.aim] := rfl

theorem aims_append (first second : List Step) :
    aims (first ++ second) = aims first ++ aims second := by
  simp [aims, statements_append]

theorem aims_flatMap {α : Type} (f : α → List Step) (xs : List α) :
    aims (xs.flatMap f) = xs.flatMap fun x => aims (f x) := by
  simp [aims, statements_flatMap, List.map_flatMap]

end Step

namespace TablePair

variable {p : TablePair}

theorem aims_dropConstraint (c : Constraint) : Step.aims (p.dropConstraint c) =
    [if c.isIndex then .dropIndex c.name.name else .dropConstraint p.table c.name.name] := by
  unfold dropConstraint
  split <;> rfl

theorem aims_addConstraint (c : Constraint) : Step.aims (p.addConstraint c) =
    [if c.isIndex then .createIndex c.name.name else .addConstraint p.table c.name.name] := by
  have halter : ∀ notValid, Step.aims (p.alter (.addConstraint c notValid)) =
      [if c.isIndex then .createIndex c.name.name else .addConstraint p.table c.name.name] :=
    fun _ => rfl
  unfold addConstraint
  cases hrule : c.rule with
  | index isUnique columns =>
      simp [Constraint.isIndex, hrule, Rule.isIndex, Statement.aim, ObjectName.ofIdent,
        ObjectName.identity]
  | _ => exact halter _

theorem aims_defaultSteps (old new : Column) : Step.aims (p.defaultSteps old new) =
    if old.default.map Expr.identity = new.default.map Expr.identity then []
    else [.setDefault p.table new.name.name] := by
  unfold defaultSteps
  split
  · rfl
  · cases new.default <;> rfl

theorem aims_nullSteps (old new : Column) : Step.aims (p.nullSteps old new) =
    if old.notNull = new.notNull then [] else [.setNull p.table new.name.name] := by
  unfold nullSteps
  split
  · rfl
  · cases new.notNull <;> rfl

theorem aims_typeSteps (old new : Column) : Step.aims (p.typeSteps old new) =
    if old.dataType.sql = new.dataType.sql then [] else [.setDataType p.table new.name.name] := by
  unfold typeSteps
  split <;> rfl

-- A column is changed as a whole, or attribute by attribute.
theorem aims_alterColumnStep (old new : Column) :
    Step.aims (p.alterColumnStep old new) = [.modifyColumn p.table new.name.name] ∨
      (Step.aims (p.alterColumnStep old new)).Sublist [.setDataType p.table new.name.name,
        .setDefault p.table new.name.name, .setNull p.table new.name.name] := by
  unfold alterColumnStep
  split
  · split
    · exact .inl rfl
    · right
      rw [aims_defaultSteps]
      split <;> simp
  · right
    split
    · exact List.nil_sublist _
    · change (Step.aims (p.typeSteps old new ++ p.defaultSteps old new ++
        p.nullSteps old new)).Sublist _
      rw [Step.aims_append, Step.aims_append, aims_typeSteps, aims_defaultSteps, aims_nullSteps]
      split <;> split <;> split <;> simp

theorem nodup_aims_alterColumnStep (old new : Column) :
    (Step.aims (p.alterColumnStep old new)).Nodup := by
  rcases aims_alterColumnStep old new with h | h
  · rw [h]
    exact List.nodup_singleton _
  · exact h.nodup (by simp)

theorem of_mem_aims_alterColumnStep {old new : Column} {a : Aim}
    (ha : a ∈ Step.aims (p.alterColumnStep old new)) :
    a.phase = 2 ∧ a.member? = some new.name.name := by
  rcases aims_alterColumnStep old new with h | h
  · rw [h] at ha
    obtain rfl := List.mem_singleton.mp ha
    exact ⟨rfl, rfl⟩
  · have ha := h.subset ha
    simp only [List.mem_cons, List.not_mem_nil, or_false] at ha
    rcases ha with rfl | rfl | rfl <;> exact ⟨rfl, rfl⟩

-- The aims of a pass over members with names of their own, all of them in one phase.
theorem phased_flatMap {α : Type} {f : α → List Step} {name : α → String} {xs : List α}
    {k : ℕ} (hxs : (xs.map name).Nodup) (hf : ∀ x ∈ xs, (Step.aims (f x)).Nodup)
    (hname : ∀ x ∈ xs, ∀ a ∈ Step.aims (f x), a.phase = k ∧ a.member? = some (name x)) :
    Phased k (k + 1) (Step.aims (xs.flatMap f)) := by
  have hphase : ∀ a ∈ Step.aims (xs.flatMap f), a.phase = k := by
    intro a ha
    rw [Step.aims_flatMap] at ha
    obtain ⟨x, hx, ha⟩ := List.mem_flatMap.mp ha
    exact (hname x hx a ha).1
  refine ⟨?_, fun a ha => (hphase a ha).ge, fun a ha => (hphase a ha).trans_lt k.lt_succ_self⟩
  rw [Step.aims_flatMap]
  refine nodup_flatMap_of_name hxs hf fun x hx y hy a ha ha' => ?_
  exact Option.some.inj ((hname x hx a ha).2.symm.trans (hname y hy a ha').2)

section Steps

variable (h : p.Unhinted) (hr : Step.refusal? p.steps = none)
  (holdColumns : (p.old.columns.map (·.name.name)).Nodup)
  (hnewColumns : (p.new.columns.map (·.name.name)).Nodup)
  (holdConstraints : (p.old.constraints.map (·.name.name)).Nodup)
  (hnewConstraints : (p.new.constraints.map (·.name.name)).Nodup)

include h holdConstraints in
theorem phased_dropConstraintSteps : Phased 0 1 (Step.aims p.dropConstraintSteps) := by
  have hsteps : Step.aims p.dropConstraintSteps = Step.aims (p.old.constraints.flatMap
      fun c => if p.keeps c then [] else p.dropConstraint c) := by
    rw [Step.aims, statements_dropConstraintSteps h, Step.aims, Step.statements_flatMap]
    congr 2
    funext c
    unfold constraintStatements
    split <;> rfl
  rw [hsteps]
  refine phased_flatMap holdConstraints (fun c _ => ?_) fun c _ a ha => ?_
  · split
    · exact List.nodup_nil
    · rw [aims_dropConstraint]
      exact List.nodup_singleton _
  · split at ha
    · cases ha
    · rw [aims_dropConstraint, List.mem_singleton] at ha
      subst ha
      split <;> exact ⟨rfl, rfl⟩

include h holdColumns in
theorem phased_dropColumnSteps : Phased 1 2 (Step.aims p.dropColumnSteps) := by
  rw [dropColumnSteps, h.oldColumns_eq]
  refine phased_flatMap holdColumns (fun c _ => ?_) fun c _ a ha => ?_
  · split
    · exact List.nodup_singleton _
    · exact List.nodup_nil
  · split at ha
    · obtain rfl := List.mem_singleton.mp ha
      exact ⟨rfl, rfl⟩
    · cases ha

include hnewColumns in
theorem phased_alterColumnSteps : Phased 2 3 (Step.aims p.alterColumnSteps) := by
  refine phased_flatMap hnewColumns (fun c _ => ?_) fun c _ a ha => ?_
  · split
    · exact nodup_aims_alterColumnStep _ _
    · exact List.nodup_nil
  · split at ha
    · exact of_mem_aims_alterColumnStep ha
    · cases ha

include hnewColumns in
theorem phased_addColumnSteps : Phased 3 4 (Step.aims p.addColumnSteps) := by
  refine phased_flatMap hnewColumns (fun c _ => ?_) fun c _ a ha => ?_
  · split
    · exact List.nodup_singleton _
    · exact List.nodup_nil
  · split at ha
    · obtain rfl := List.mem_singleton.mp ha
      exact ⟨rfl, rfl⟩
    · cases ha

include hnewConstraints in
theorem phased_addConstraintSteps : Phased 4 5 (Step.aims p.addConstraintSteps) := by
  refine phased_flatMap hnewConstraints (fun c _ => ?_) fun c _ a ha => ?_
  · split
    · rw [aims_addConstraint]
      exact List.nodup_singleton _
    · exact List.nodup_nil
  · split at ha
    · rw [aims_addConstraint, List.mem_singleton] at ha
      subst ha
      split <;> exact ⟨rfl, rfl⟩
    · cases ha

include h hr holdColumns hnewColumns holdConstraints hnewConstraints in
-- No two statements for one table have the same aim.
theorem nodup_aims_steps : (Step.aims p.steps).Nodup := by
  have haims : Step.aims p.steps = Step.aims p.dropConstraintSteps ++
      (Step.aims p.dropColumnSteps ++ (Step.aims p.alterColumnSteps ++
        (Step.aims p.addColumnSteps ++ Step.aims p.addConstraintSteps))) := by
    simp [Step.aims, statements_steps h hr]
  rw [haims]
  exact ((phased_dropConstraintSteps h holdConstraints).append
    ((phased_dropColumnSteps h holdColumns).append ((phased_alterColumnSteps hnewColumns).append
      ((phased_addColumnSteps hnewColumns).append (phased_addConstraintSteps hnewConstraints)
        (by decide) (by decide)) (by decide) (by decide)) (by decide) (by decide))
          (by decide) (by decide)).nodup

end Steps

end TablePair

namespace ObjectKey

def dropAim : ObjectKey → Aim
  | table name => .dropTable name
  | index name => .dropIndex name

def createAim : ObjectKey → Aim
  | table name => .createTable name
  | index name => .createIndex name

theorem dropAim_injective : Function.Injective dropAim := by
  rintro (_ | _) (_ | _) h <;> cases h <;> rfl

theorem createAim_injective : Function.Injective createAim := by
  rintro (_ | _) (_ | _) h <;> cases h <;> rfl

end ObjectKey

theorem aim_dropStatement (d : Dialect) (o : SchemaObject) :
    (dropStatement d id o).aim = o.key.dropAim := by
  cases o <;> rfl

theorem aim_statement (o : SchemaObject) : o.statement.aim = o.key.createAim := by
  cases o <;> rfl

namespace SchemaPair

variable {p : SchemaPair}

-- What a new object has to do with an aim. A table counts under its old and its new indexes.
inductive About (p : SchemaPair) : SchemaObject → Aim → Prop
  | table {t : CreateTable} {a : Aim} (h : a.table? = some t.name.identity) : About p (.table t) a
  | createIndex {x : SchemaObject} {name : String} (h : name ∈ x.indexNames) :
      About p x (.createIndex name)
  | dropIndex {t u : CreateTable} {name : String} (ht : .table t ∈ objects p.before)
      (hname : t.name.identity = u.name.identity)
      (h : name ∈ (SchemaObject.table t).indexNames) : About p (.table u) (.dropIndex name)

-- An aim tells the new object that it is about.
theorem About.key_eq (hbefore : Distinct p.before) (hafter : Distinct p.after) {x y : SchemaObject}
    {a : Aim} (hx : x ∈ objects p.after) (hy : y ∈ objects p.after) (h : p.About x a)
    (h' : p.About y a) : x.key = y.key := by
  cases h with
  | @table t _ h =>
      cases h' with
      | table h' => exact congrArg ObjectKey.table (Option.some.inj (h.symm.trans h'))
      | createIndex => cases h
      | dropIndex => cases h
  | createIndex h =>
      cases h' with
      | table h' => cases h'
      | createIndex h' => rw [hafter.eq_of_mem_indexNames hx hy h h']
  | @dropIndex t u name ht hname h =>
      cases h' with
      | table h' => cases h'
      | @dropIndex t' u' _ ht' hname' h' =>
          have heq := hbefore.eq_of_mem_indexNames ht ht' h h'
          cases heq
          exact congrArg ObjectKey.table (hname.symm.trans hname')

namespace Named

theorem about_statement (x : SchemaObject) : p.About x x.statement.aim := by
  cases x with
  | table t => exact .table rfl
  | index i => exact .createIndex (List.mem_singleton.mpr rfl)

theorem about_reason {t u : CreateTable} (ht : .table t ∈ objects p.before)
    (hname : t.name.identity = u.name.identity) {s : Statement}
    (h : (p.tablePair t u).Reason s) : p.About (.table u) s.aim := by
  cases h with
  | dropIndex hc hindex => exact .dropIndex ht hname (mem_indexNames_of_isIndex hc hindex)
  | dropConstraint => exact .table rfl
  | column h =>
      refine .table ?_
      cases h <;> simp [Statement.aim, TableChange.aim, Aim.table?, tablePair]
  | createIndex hc hrule =>
      exact .createIndex (mem_indexNames_of_isIndex hc (by rw [Constraint.isIndex, hrule]; rfl))
  | addConstraint hc hindex =>
      refine .table ?_
      simp only [Statement.aim, TableChange.aim, hindex, Bool.false_eq_true, if_false]
      rfl

theorem about_alterSteps (h : p.Named) {x : SchemaObject} (hx : x ∈ objects p.after) :
    ∀ a ∈ Step.aims (p.alterSteps x), p.About x a := by
  intro a ha
  obtain ⟨s, hs, rfl⟩ := List.mem_map.mp ha
  cases hq : p.tablePair? x with
  | some q =>
      obtain ⟨hr, hold, hnew⟩ := h.steps_of_tablePair? hx hq
      obtain ⟨t, u, rfl, rfl, ht, hname⟩ := h.of_tablePair? hq
      rw [alterSteps_of_some hq] at hs
      exact about_reason ht hname (TablePair.reason_steps (h.unhinted hq) hold hnew hr s hs)
  | none =>
      cases x with
      | table t =>
          rw [statements_alterSteps_of_none hq] at hs
          cases hs
      | index i =>
          rw [statements_alterSteps_index] at hs
          split at hs
          · split at hs
            · obtain rfl := List.mem_singleton.mp hs
              exact about_statement (.index i)
            · cases hs
          · cases hs

theorem aims_drops (h : p.Named) : Step.aims p.drops =
    ((objects p.before).reverse.filter p.isDropped).map (·.key.dropAim) := by
  rw [Step.aims, statements_drops h.options, List.map_map]
  exact List.map_congr_left fun o _ => aim_dropStatement p.dialect o

theorem aims_creates (p : SchemaPair) : Step.aims p.creates =
    ((objects p.after).filter fun x => (p.old? x.key).isNone).map (·.key.createAim) := by
  rw [Step.aims, statements_creates, List.map_map]
  exact List.map_congr_left fun o _ => aim_statement o

theorem aims_steps (h : p.Named) : Step.aims p.steps =
    Step.aims p.drops ++ (Step.aims p.creates ++
      (objects p.after).flatMap fun x => Step.aims (p.alterSteps x)) := by
  rw [Step.aims, statements_steps_of_default h.options, ← Step.aims_flatMap]
  simp [Step.aims, alters]

-- What is created is not altered.
theorem notMem_aims_alterSteps_of_created (h : p.Named) {x : SchemaObject}
    (hx : x ∈ objects p.after) {a : Aim} (ha : a ∈ Step.aims (p.alterSteps x)) :
    a ∉ Step.aims p.creates := by
  intro hcreated
  rw [aims_creates] at hcreated
  obtain ⟨y, hy, rfl⟩ := List.mem_map.mp hcreated
  obtain ⟨hy, hfresh⟩ := List.mem_filter.mp hy
  have hkey : y.key = x.key := About.key_eq h.before h.after hy hx
    (aim_statement y ▸ about_statement y) (h.about_alterSteps hx _ ha)
  rw [hkey] at hfresh
  simp [Step.aims, alterSteps, Option.isNone_iff_eq_none.mp hfresh] at ha

-- What is dropped is neither created nor altered. An index of its own is not one of a table.
theorem notMem_aims_creates_of_dropped (h : p.Named) {a : Aim} (ha : a ∈ Step.aims p.drops) :
    a ∉ Step.aims p.creates := by
  intro hcreated
  rw [h.aims_drops] at ha
  rw [aims_creates] at hcreated
  obtain ⟨x, -, rfl⟩ := List.mem_map.mp ha
  obtain ⟨y, -, heq⟩ := List.mem_map.mp hcreated
  rcases hkx : x.key with _ | _ <;> rcases hky : y.key with _ | _ <;> rw [hkx, hky] at heq <;>
    cases heq

theorem notMem_aims_alterSteps_of_dropped (h : p.Named) {x : SchemaObject}
    (hx : x ∈ objects p.after) {a : Aim} (ha : a ∈ Step.aims p.drops) :
    a ∉ Step.aims (p.alterSteps x) := by
  intro haltered
  rw [h.aims_drops] at ha
  obtain ⟨y, hy, rfl⟩ := List.mem_map.mp ha
  have hy : y ∈ objects p.before := List.mem_reverse.mp (List.mem_filter.mp hy).1
  have habout := h.about_alterSteps hx _ haltered
  cases y with
  | table t =>
      cases habout with
      | table h => cases h
  | index i =>
      cases habout with
      | table h => cases h
      | dropIndex ht _ hname =>
          cases h.before.eq_of_mem_indexNames ht hy hname (List.mem_singleton.mpr rfl)

section Nodup

variable (h : p.Named) (hbefore : ∀ x ∈ objects p.before, x.columnNames.Nodup)
  (hafter : ∀ x ∈ objects p.after, x.columnNames.Nodup)

include h hbefore hafter in
theorem nodup_aims_alterSteps {x : SchemaObject} (hx : x ∈ objects p.after) :
    (Step.aims (p.alterSteps x)).Nodup := by
  cases hq : p.tablePair? x with
  | some q =>
      obtain ⟨hr, hold, hnew⟩ := h.steps_of_tablePair? hx hq
      have hunhinted := h.unhinted hq
      obtain ⟨t, u, rfl, rfl, ht, -⟩ := h.of_tablePair? hq
      rw [alterSteps_of_some hq]
      exact TablePair.nodup_aims_steps hunhinted hr (hbefore _ ht) (hafter _ hx) hold hnew
  | none =>
      cases x with
      | table t => simp [Step.aims, statements_alterSteps_of_none hq]
      | index i =>
          rw [Step.aims, statements_alterSteps_index]
          split
          · split <;> simp
          · exact List.nodup_nil

include h hbefore hafter in
-- No two statements of a migration have the same aim.
theorem nodup_aims_steps : (Step.aims p.steps).Nodup := by
  have hnodup : ∀ {os os' : List SchemaObject} {f : ObjectKey → Aim}, f.Injective →
      os'.Sublist os → (os.map key).Nodup → (os'.map (f ·.key)).Nodup := by
    intro os os' f hf hsub hkeys
    rw [← Function.comp_def, ← List.map_map]
    exact ((hsub.map key).nodup hkeys).map hf
  rw [h.aims_steps, List.nodup_append, List.nodup_append]
  refine ⟨?_, ⟨?_, ?_, ?_⟩, ?_⟩
  · rw [h.aims_drops]
    refine hnodup ObjectKey.dropAim_injective List.filter_sublist ?_
    rw [List.map_reverse]
    exact List.nodup_reverse.mpr h.before.keys_nodup
  · rw [aims_creates]
    exact hnodup ObjectKey.createAim_injective List.filter_sublist h.after.keys_nodup
  · refine nodup_flatMap_of_name h.after.keys_nodup
      (fun x hx => nodup_aims_alterSteps h hbefore hafter hx) fun x hx y hy a ha ha' => ?_
    exact About.key_eq h.before h.after hx hy (h.about_alterSteps hx a ha)
      (h.about_alterSteps hy a ha')
  · rintro a ha b hb rfl
    obtain ⟨x, hx, hb⟩ := List.mem_flatMap.mp hb
    exact h.notMem_aims_alterSteps_of_created hx hb ha
  · rintro a ha b hb rfl
    rcases List.mem_append.mp hb with hb | hb
    · exact h.notMem_aims_creates_of_dropped ha hb
    · obtain ⟨x, hx, hb⟩ := List.mem_flatMap.mp hb
      exact h.notMem_aims_alterSteps_of_dropped hx ha hb

end Nodup

end Named

end SchemaPair

namespace TablePair

variable {q : TablePair} {s : Statement}

-- What a statement for a table is about is a part of the table.
theorem Reason.member?_isSome (h : q.Reason s) : s.aim.member?.isSome = true := by
  cases h with
  | addConstraint hc hindex => simp [Statement.aim, TableChange.aim, hindex, Aim.member?]
  | column h => cases h <;> simp [Statement.aim, TableChange.aim, Aim.member?]
  | _ => rfl

theorem Reason.aim_ne {a : Aim} (h : q.Reason s) (ha : a.member? = none) : s.aim ≠ a := by
  rintro rfl
  rw [Option.eq_none_iff_forall_ne_some] at ha
  obtain ⟨name, hname⟩ := Option.isSome_iff_exists.mp h.member?_isSome
  exact ha name hname

theorem Reason.of_addColumn {name : String} (h : q.Reason s)
    (ha : s.aim = .addColumn q.table name) : q.old.column? name = none := by
  cases h with
  | addConstraint hc hindex => simp [Statement.aim, TableChange.aim, hindex] at ha
  | column h =>
      cases h with
      | addColumn hnew hfresh => cases ha; exact hfresh
      | _ => simp [Statement.aim, TableChange.aim] at ha
  | _ => cases ha

theorem Reason.of_modifyColumn {name : String} (h : q.Reason s)
    (ha : s.aim = .modifyColumn q.table name) : q.dialect.alterColumnStyle = .modify ∧
      ∃ old new, new ∈ q.new.columns ∧ new.name.name = name ∧ q.old.column? name = some old ∧
        needsModify old new = true := by
  cases h with
  | addConstraint hc hindex => simp [Statement.aim, TableChange.aim, hindex] at ha
  | column h =>
      cases h with
      | modifyColumn hnew hold hstyle hneeds => cases ha; exact ⟨hstyle, _, _, hnew, rfl, hold, hneeds⟩
      | _ => simp [Statement.aim, TableChange.aim] at ha
  | _ => cases ha

-- A column that is written anew is not changed in another way.
theorem Reason.of_alterColumn {table : ObjectName} {name : Ident} {change : ColumnChange}
    (h : q.Reason (.alterTable table (.alterColumn name change))) :
    ∃ old new, new ∈ q.new.columns ∧ new.name.name = name.name ∧
      q.old.column? name.name = some old ∧
      (q.dialect.alterColumnStyle = .modify → needsModify old new = false) := by
  cases h with
  | column h =>
      cases h with
      | setDataType hnew hold hstyle =>
          exact ⟨_, _, hnew, rfl, hold, fun hmodify => by rw [hstyle] at hmodify; cases hmodify⟩
      | changeDefault hnew hold hstyle => exact ⟨_, _, hnew, rfl, hold, hstyle⟩
      | changeNull hnew hold hstyle =>
          exact ⟨_, _, hnew, rfl, hold, fun hmodify => by rw [hstyle] at hmodify; cases hmodify⟩

end TablePair

namespace SchemaPair

variable {p : SchemaPair} {s : Statement}

theorem Reason.aim_ne_rename (h : p.Reason s) : s.aim ≠ .rename := by
  intro ha
  cases h with
  | alter ht hu hname h => exact absurd ha (h.aim_ne rfl)
  | _ => cases ha

theorem Reason.of_dropTable {name : String} (h : p.Reason s) (ha : s.aim = .dropTable name) :
    ∀ u, .table u ∈ objects p.after → u.name.identity ≠ name := by
  cases h with
  | dropTable ht hgone => cases ha; exact hgone
  | alter ht hu hname h => exact absurd ha (h.aim_ne rfl)
  | _ => cases ha

theorem Reason.of_createTable {name : String} (h : p.Reason s) (ha : s.aim = .createTable name) :
    ∀ t, .table t ∈ objects p.before → t.name.identity ≠ name := by
  cases h with
  | createTable ht hfresh => cases ha; exact hfresh
  | alter ht hu hname h => exact absurd ha (h.aim_ne rfl)
  | _ => cases ha

-- A statement about a table that both schemas have is one for the pair of its versions.
theorem Named.reason_of_table? (h : p.Named) {t u : CreateTable} (ht : .table t ∈ objects p.before)
    (hu : .table u ∈ objects p.after) (hname : t.name.identity = u.name.identity)
    (hs : p.Reason s) (htable : s.aim.table? = some u.name.identity) :
    (p.tablePair t u).Reason s := by
  cases hs with
  | createTable hu' hfresh =>
      exact absurd (hname.trans (Option.some.inj htable).symm) (hfresh t ht)
  | @alter t' u' _ ht' hu' hname' hs =>
      have habout := Named.about_reason ht' hname' hs
      have hkey : (SchemaObject.table u).key = (SchemaObject.table u').key :=
        About.key_eq h.before h.after hu hu' (.table htable) habout
      obtain rfl : u = u' :=
        SchemaObject.table.inj (List.inj_on_of_nodup_map h.after.keys_nodup hu hu' hkey)
      obtain rfl : t = t' := SchemaObject.table.inj (List.inj_on_of_nodup_map h.before.keys_nodup
        ht ht' (congrArg ObjectKey.table (hname.trans hname'.symm)))
      exact hs
  | _ => cases htable

end SchemaPair

end Migration

end SchemaDiff
