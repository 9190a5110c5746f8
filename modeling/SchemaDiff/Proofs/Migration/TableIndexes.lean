import SchemaDiff.Proofs.Catalog.Identity
import SchemaDiff.Proofs.Indexes
import SchemaDiff.Proofs.Migration.Reasons

namespace SchemaDiff.Migration.TablePair

open Indexes

variable {p : TablePair} {name : String} {o o' : Option IndexState}

-- A change of a table is no matter of indexes, unless it renames or brings in an index.
theorem silent_alterTable {table : ObjectName} {change : TableChange}
    (hentries : (Statement.alterTable table change).indexEntries = [])
    (htable : ∀ new, change ≠ .renameTable new) (hcolumn : ∀ old new, change ≠ .renameColumn old new) :
    (watchAt name).Silent [.alterTable table change] := by
  intro o
  have hexec : execAt name o (.alterTable table change) =
      o.or ((Statement.alterTable table change).indexEntries.lookup name) := by
    cases change with
    | renameTable new => exact absurd rfl (htable new)
    | renameColumn old new => exact absurd rfl (hcolumn old new)
    | _ => rfl
  have hnone : (Statement.alterTable table change).indexEntries.lookup name = none := by
    rw [hentries, List.lookup_nil]
  refine Watch.leads_singleton.mpr ⟨fun hsome => ?_, ?_⟩
  · rw [hnone] at hsome
    cases hsome
  · show execAt name o _ = o
    rw [hexec, hnone, Option.or_none]

theorem silent_columnSteps (h : p.Unhinted) :
    (watchAt name).Silent (Step.statements p.columnSteps) := by
  refine Watch.silent_of_forall fun s hs o => ?_
  obtain ⟨change, rfl, hreason⟩ := reason_columnSteps h s hs
  refine Watch.leads_singleton.mp (silent_alterTable ?_ ?_ ?_ o)
  all_goals cases hreason <;> simp [Statement.indexEntries]

-- A constraint that is an index is dropped by a statement about it.
theorem leads_dropConstraint {c : Constraint} (hindex : c.isIndex = true) {i : IndexState}
    (htable : i.table = p.table) :
    (watchAt c.name.name).Leads (some i) (Step.statements (p.dropConstraint c)) none := by
  rw [dropConstraint, if_pos hindex, Step.statements_announce, Watch.leads_singleton]
  refine ⟨fun _ => ⟨i, rfl, fun t ht => ?_⟩, if_pos rfl⟩
  split at ht
  · cases ht
    exact htable.symm
  · cases ht

theorem silent_dropConstraint {c : Constraint} (hne : c.isIndex = true → c.name.name ≠ name) :
    (watchAt name).Silent (Step.statements (p.dropConstraint c)) := by
  unfold dropConstraint
  split
  · rename_i hindex
    intro o
    rw [Step.statements_announce, Watch.leads_singleton]
    exact ⟨fun heq => absurd heq (hne hindex), if_neg (hne hindex)⟩
  · exact silent_alterTable rfl (by simp) (by simp)

-- It is added by a statement that creates an index.
theorem statements_addConstraint {c : Constraint} {isUnique : Bool} {columns : List ColumnIdent}
    (hrule : c.rule = .index isUnique columns) : Step.statements (p.addConstraint c) =
      [(SchemaObject.index
        ⟨isUnique, false, .ofIdent c.name, p.new.name, none, columns, none⟩).statement] := by
  simp [addConstraint, hrule, SchemaObject.statement]

theorem leads_addConstraint {c : Constraint} {isUnique : Bool} {columns : List ColumnIdent}
    (hrule : c.rule = .index isUnique columns) :
    (watchAt c.name.name).Leads o (Step.statements (p.addConstraint c)) o' ↔
      o = none ∧ o' = some (.inline p.table isUnique columns) := by
  rw [statements_addConstraint hrule, leads_statement_of_mem]
  · simp [SchemaObject.indexEntries, ObjectName.ofIdent, ObjectName.identity, IndexState.of,
      IndexState.inline]
  · simp [SchemaObject.indexNames, SchemaObject.indexEntries, ObjectName.ofIdent,
      ObjectName.identity]

theorem silent_addConstraint {c : Constraint} (hne : c.isIndex = true → c.name.name ≠ name) :
    (watchAt name).Silent (Step.statements (p.addConstraint c)) := by
  by_cases hindex : c.isIndex = true
  · obtain ⟨isUnique, columns, hrule⟩ := Constraint.exists_of_isIndex hindex
    rw [statements_addConstraint hrule]
    refine leads_statement_of_not_mem ?_
    simpa [SchemaObject.indexNames, SchemaObject.indexEntries, ObjectName.ofIdent,
      ObjectName.identity] using (hne hindex).symm
  · have hentries : ∀ notValid,
        (Statement.alterTable p.new.name (.addConstraint c notValid)).indexEntries = [] := by
      simp [Statement.indexEntries, Constraint.indexEntryOf?_of_not_isIndex, hindex]
    unfold addConstraint
    split
    · rename_i hrule
      simp [Constraint.isIndex, hrule, Rule.isIndex] at hindex
    all_goals exact silent_alterTable (hentries _) (by simp) (by simp)

-- The index that a constraint is.
theorem lookup_indexEntries {t : CreateTable} (h : (t.constraints.map (·.name.name)).Nodup)
    {c : Constraint} (hc : c ∈ t.constraints) {isUnique : Bool} {columns : List ColumnIdent}
    (hrule : c.rule = .index isUnique columns) :
    (SchemaObject.table t).indexEntries.lookup c.name.name =
      some (.inline t.name.identity isUnique columns) := by
  refine (Store.lookup_eq_some_iff_mem ?_).mpr ?_
  · exact Store.nodup_map_filterMap (·.name.name) (fun _ _ => Constraint.indexEntryOf?_name) h
  · exact List.mem_filterMap.mpr ⟨c, hc, by rw [Constraint.indexEntryOf?, hrule]⟩

-- Two versions of a table have the same under a name, or nothing.
def SameAt (t u : CreateTable) (name : String) : Prop :=
  (t.constraint? name).map (·.definition) = (u.constraint? name).map (·.definition)

instance (t u : CreateTable) (name : String) : Decidable (SameAt t u name) :=
  inferInstanceAs (Decidable (_ = _))

-- The old version has an index of that name, and it goes.
def Loses (p : TablePair) (name : String) : Prop :=
  ∃ c ∈ p.old.constraints, c.isIndex = true ∧ c.name.name = name ∧ p.keeps c = false

-- The new version has an index of that name, and it comes.
def Gains (p : TablePair) (name : String) : Prop :=
  ∃ c ∈ p.new.constraints, c.isIndex = true ∧ c.name.name = name ∧ p.kept c = false

section

variable (h : p.Unhinted) (hold : (p.old.constraints.map (·.name.name)).Nodup)
  (hnew : (p.new.constraints.map (·.name.name)).Nodup)

include h

theorem silent_dropConstraintSteps (hkeeps : ¬p.Loses name) :
    (watchAt name).Silent (Step.statements p.dropConstraintSteps) := by
  rw [statements_dropConstraintSteps h]
  refine Watch.silent_flatMap fun c hc => ?_
  unfold constraintStatements
  split
  · exact fun o => Watch.leads_nil.mpr rfl
  · rename_i hgone
    exact silent_dropConstraint fun hindex hname =>
      hkeeps ⟨c, hc, hindex, hname, by simpa using hgone⟩

include hold

theorem leads_dropConstraintSteps (hloses : p.Loses name) {i : IndexState}
    (htable : i.table = p.table) :
    (watchAt name).Leads (some i) (Step.statements p.dropConstraintSteps) none := by
  obtain ⟨c, hc, hindex, rfl, hgone⟩ := hloses
  rw [statements_dropConstraintSteps h,
    Watch.leads_flatMap_of_mem hc (.of_map _ hold) fun x hx hne => ?_]
  · rw [constraintStatements, if_neg (by simp [hgone])]
    exact leads_dropConstraint hindex htable
  · unfold constraintStatements
    split
    · exact fun o => Watch.leads_nil.mpr rfl
    · exact silent_dropConstraint fun _ hname => hne (List.inj_on_of_nodup_map hold hx hc hname)

include hnew

theorem silent_addConstraintSteps (hkept : ¬p.Gains name) :
    (watchAt name).Silent (Step.statements p.addConstraintSteps) := by
  rw [addConstraintSteps, Step.statements_flatMap]
  refine Watch.silent_flatMap fun c hc => ?_
  rw [adds_eq h hold hnew hc]
  split
  · rename_i hfresh
    exact silent_addConstraint fun hindex hname =>
      hkept ⟨c, hc, hindex, hname, by simpa using hfresh⟩
  · exact fun o => Watch.leads_nil.mpr rfl

theorem leads_addConstraintSteps (hgains : p.Gains name) :
    (watchAt name).Leads o (Step.statements p.addConstraintSteps) o' ↔
      o = none ∧ o' = (SchemaObject.table p.new).indexEntries.lookup name := by
  obtain ⟨c, hc, hindex, rfl, hfresh⟩ := hgains
  obtain ⟨isUnique, columns, hrule⟩ := Constraint.exists_of_isIndex hindex
  rw [addConstraintSteps, Step.statements_flatMap,
    Watch.leads_flatMap_of_mem hc (.of_map _ hnew) fun x hx hne => ?_]
  · rw [adds_eq h hold hnew hc, if_pos (by simp [hfresh]), leads_addConstraint hrule,
      lookup_indexEntries hnew hc hrule]
  · split
    · exact silent_addConstraint fun _ hname => hne (List.inj_on_of_nodup_map hnew hx hc hname)
    · exact fun o => Watch.leads_nil.mpr rfl

variable (hr : Step.refusal? p.steps = none)

include hr

omit hold hnew in
theorem statements_steps_eq : Step.statements p.steps = Step.statements p.dropConstraintSteps ++
    (Step.statements p.columnSteps ++ Step.statements p.addConstraintSteps) := by
  simp [steps, optionSteps_eq_nil hr, h.renameConstraintSteps_eq, Step.statements_append]

theorem silent_steps (hkeeps : ¬p.Loses name) (hkept : ¬p.Gains name) :
    (watchAt name).Silent (Step.statements p.steps) := by
  rw [statements_steps_eq h hr]
  exact (silent_dropConstraintSteps h hkeeps).append
    ((silent_columnSteps h).append (silent_addConstraintSteps h hold hnew hkept))

theorem leads_steps_of_gains (hkeeps : ¬p.Loses name) (hgains : p.Gains name) :
    (watchAt name).Leads o (Step.statements p.steps) o' ↔
      o = none ∧ o' = (SchemaObject.table p.new).indexEntries.lookup name := by
  rw [statements_steps_eq h hr, Watch.leads_append_of (silent_dropConstraintSteps h hkeeps o),
    Watch.leads_append_of (silent_columnSteps h o), leads_addConstraintSteps h hold hnew hgains]

omit hnew in
theorem leads_steps_of_loses (hloses : p.Loses name) {i : IndexState} (htable : i.table = p.table) :
    (watchAt name).Leads (some i) (Step.statements p.steps) o' ↔
      (watchAt name).Leads none (Step.statements p.addConstraintSteps) o' := by
  rw [statements_steps_eq h hr,
    Watch.leads_append_of (leads_dropConstraintSteps h hold hloses htable),
    Watch.leads_append_of (silent_columnSteps h none)]

end

section

variable (hold : (p.old.constraints.map (·.name.name)).Nodup)
  (hnew : (p.new.constraints.map (·.name.name)).Nodup)

theorem mem_indexNames_iff {t : CreateTable} : name ∈ (SchemaObject.table t).indexNames ↔
    ∃ c ∈ t.constraints, c.isIndex = true ∧ c.name.name = name := by
  constructor
  · intro h
    obtain ⟨e, he, rfl⟩ := List.mem_map.mp h
    obtain ⟨c, hc, hentry⟩ := List.mem_filterMap.mp he
    exact ⟨c, hc, Constraint.isIndex_of_indexEntryOf? hentry,
      (Constraint.indexEntryOf?_name hentry).symm⟩
  · rintro ⟨c, hc, hindex, rfl⟩
    exact SchemaObject.mem_indexNames_of_isIndex hc hindex

theorem constraint?_eq_some {t : CreateTable} (h : (t.constraints.map (·.name.name)).Nodup)
    {c : Constraint} (hc : c ∈ t.constraints) : t.constraint? c.name.name = some c :=
  (find?_name_eq_some (n := c.name.name) h).mpr ⟨hc, rfl⟩

include hold in
theorem loses_iff : p.Loses name ↔
    name ∈ (SchemaObject.table p.old).indexNames ∧ ¬SameAt p.old p.new name := by
  rw [mem_indexNames_iff]
  constructor
  · rintro ⟨c, hc, hindex, rfl, hgone⟩
    refine ⟨⟨c, hc, hindex, rfl⟩, fun hsame => ?_⟩
    rw [SameAt, constraint?_eq_some hold hc, Option.map_some, eq_comm, Option.map_eq_some_iff] at hsame
    obtain ⟨new, hnew, hdefinition⟩ := hsame
    simp [keeps, hnew, hdefinition] at hgone
  · rintro ⟨⟨c, hc, hindex, rfl⟩, hne⟩
    refine ⟨c, hc, hindex, rfl, ?_⟩
    rw [SameAt, constraint?_eq_some hold hc, Option.map_some] at hne
    cases hnew : p.new.constraint? c.name.name with
    | none => simp [keeps, hnew]
    | some new =>
        rw [hnew, Option.map_some, Option.some.injEq] at hne
        simp [keeps, hnew, Ne.symm hne]

include hold hnew in
theorem gains_iff : p.Gains name ↔
    name ∈ (SchemaObject.table p.new).indexNames ∧ ¬SameAt p.old p.new name := by
  have hkept : ∀ {c : Constraint}, c ∈ p.new.constraints →
      (p.kept c = true ↔ SameAt p.old p.new c.name.name) := by
    intro c hc
    rw [kept_iff, SameAt, constraint?_eq_some hnew hc, Option.map_some, Option.map_eq_some_iff]
    constructor
    · rintro ⟨old, ho, hname, hdefinition⟩
      exact ⟨old, hname ▸ constraint?_eq_some hold ho, hdefinition.symm⟩
    · rintro ⟨old, ho, hdefinition⟩
      exact ⟨old, List.mem_of_find?_eq_some ho, by simpa using List.find?_some ho, hdefinition.symm⟩
  rw [mem_indexNames_iff]
  constructor
  · rintro ⟨c, hc, hindex, rfl, hfresh⟩
    exact ⟨⟨c, hc, hindex, rfl⟩, fun hsame => by simp [(hkept hc).mpr hsame] at hfresh⟩
  · rintro ⟨⟨c, hc, hindex, rfl⟩, hne⟩
    exact ⟨c, hc, hindex, rfl, by simpa [← hkept hc] using hne⟩

include hold hnew in
-- What is under the name is an index in both versions, or in none.
theorem indexNames_iff_of_same (hsame : SameAt p.old p.new name) :
    name ∈ (SchemaObject.table p.old).indexNames ↔ name ∈ (SchemaObject.table p.new).indexNames := by
  have hside : ∀ {t u : CreateTable}, (t.constraints.map (·.name.name)).Nodup → SameAt t u name →
      name ∈ (SchemaObject.table t).indexNames → name ∈ (SchemaObject.table u).indexNames := by
    intro t u ht hsame hm
    rw [mem_indexNames_iff] at hm ⊢
    obtain ⟨c, hc, hindex, rfl⟩ := hm
    rw [SameAt, constraint?_eq_some ht hc, Option.map_some, eq_comm, Option.map_eq_some_iff] at hsame
    obtain ⟨new, hfound, hdefinition⟩ := hsame
    refine ⟨new, List.mem_of_find?_eq_some hfound, ?_, by simpa using List.find?_some hfound⟩
    exact (Rule.isIndex_of_identity hdefinition).trans hindex
  exact ⟨hside hold hsame, hside hnew hsame.symm⟩

end

end SchemaDiff.Migration.TablePair
