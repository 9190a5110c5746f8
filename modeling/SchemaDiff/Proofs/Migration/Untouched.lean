import SchemaDiff.Proofs.Migration.Orderly
import SchemaDiff.Proofs.Migration.Planned

namespace SchemaDiff.Migration

open SchemaObject

-- The object that a statement creates, changes or drops.
def subject : Statement → ObjectKey
  | .createTable t => .table t.name.identity
  | .dropTable _ name => .table name.identity
  | .alterTable name _ => .table name.identity
  | .createIndex i => .index i.name.identity
  | .dropIndex _ name _ => .index name.identity

namespace SchemaObject

-- The indexes that a table declares among its constraints.
def inlineKeys : SchemaObject → List ObjectKey
  | table t => (t.constraints.filter Constraint.isIndex).map (.index ·.name.name)
  | index _ => []

-- Everything that a plan can be about on account of one object.
def subjects (o : SchemaObject) : List ObjectKey :=
  o.key :: o.inlineKeys

@[simp] theorem subject_statement (o : SchemaObject) : subject o.statement = o.key := by
  cases o <;> rfl

@[simp] theorem subject_dropStatement (d : Dialect) (f : ObjectName → ObjectName)
    (o : SchemaObject) : subject (o.dropStatement d f) = o.key := by
  cases o <;> rfl

@[simp] theorem ofStatement?_statement (o : SchemaObject) : ofStatement? o.statement = some o := by
  cases o <;> rfl

theorem ofStatement?_eq_some {s : Statement} {o : SchemaObject} :
    ofStatement? s = some o ↔ s = o.statement := by
  constructor
  · intro h
    cases s with
    | createTable t => cases h; rfl
    | createIndex i => cases h; rfl
    | _ => cases h
  · rintro rfl
    exact ofStatement?_statement o

theorem mem_inlineKeys {t : CreateTable} {c : Constraint} (hc : c ∈ t.constraints)
    (hi : c.isIndex = true) : .index c.name.name ∈ (table t).inlineKeys :=
  List.mem_map.mpr ⟨c, List.mem_filter.mpr ⟨hc, hi⟩, rfl⟩

end SchemaObject

namespace Step

-- The steps that count for the result: all but the notes.
def work (steps : List Step) : List Step :=
  steps.filter fun
    | note _ => false
    | _ => true

theorem work_append (first second : List Step) : work (first ++ second) = work first ++ work second :=
  List.filter_append first second

theorem refusal?_work (steps : List Step) : refusal? (work steps) = refusal? steps := by
  induction steps with
  | nil => rfl
  | cons step steps ih =>
      cases step with
      | note event => exact ih
      | emit s => exact ih
      | refuse r => rfl

theorem statements_work (steps : List Step) : statements (work steps) = statements steps := by
  induction steps with
  | nil => rfl
  | cons step steps ih =>
      cases step with
      | note event => exact ih
      | emit s => exact congrArg (s :: ·) ih
      | refuse r => exact ih

-- Members without work can be left out.
theorem work_flatMap_filter {α : Type} {f : α → List Step} {test : α → Bool} {xs : List α}
    (h : ∀ x ∈ xs, test x = false → work (f x) = []) :
    work ((xs.filter test).flatMap f) = work (xs.flatMap f) := by
  induction xs with
  | nil => rfl
  | cons x xs ih =>
      have hrest := ih fun y hy => h y (List.mem_cons_of_mem x hy)
      by_cases hx : test x = true
      · rw [List.filter_cons_of_pos hx, List.flatMap_cons, List.flatMap_cons, work_append,
          work_append, hrest]
      · have hx : test x = false := by simpa using hx
        rw [List.filter_cons_of_neg (by simp [hx]), List.flatMap_cons, work_append,
          h x List.mem_cons_self hx, List.nil_append, hrest]

theorem result_work (steps : List Step) : result (work steps) = result steps := by
  rw [result, result, refusal?_work, statements_work]

end Step

namespace TablePair

variable {p : TablePair} {keys : List ObjectKey}

-- Whatever is planned for a table is about the table, or about an index that one of its two
-- versions declares.
theorem subject_of_plans {s : Statement} (h : p.Plans s) (hunhinted : p.Unhinted)
    (htable : .table p.new.name.identity ∈ keys)
    (hold : ∀ key ∈ (SchemaObject.table p.old).inlineKeys, key ∈ keys)
    (hnew : ∀ key ∈ (SchemaObject.table p.new).inlineKeys, key ∈ keys) : subject s ∈ keys := by
  cases h with
  | dropIndex hc hindex =>
      rw [hunhinted.oldConstraints_eq] at hc
      exact hold _ (mem_inlineKeys hc hindex)
  | createIndex hc hrule =>
      exact hnew _ (mem_inlineKeys hc (by rw [Constraint.isIndex, hrule]; rfl))
  | _ => exact htable

-- Nothing is to be done for a table that stays as it is.
theorem work_steps_of_eq (h : p.Unhinted) (heq : p.old = p.new)
    (hcolumns : (p.new.columns.map (·.name.name)).Nodup)
    (hconstraints : (p.new.constraints.map (·.name.name)).Nodup) : Step.work p.steps = [] := by
  have hconstraint : ∀ c ∈ p.new.constraints, p.new.constraint? c.name.name = some c :=
    fun c hc => (find?_name_eq_some hconstraints).mpr ⟨hc, rfl⟩
  have hcolumn : ∀ c ∈ p.new.columns, p.new.column? c.name.name = some c :=
    fun c hc => (find?_name_eq_some hcolumns).mpr ⟨hc, rfl⟩
  have hchanged : ∀ c ∈ p.new.constraints, p.changed? c = none := by
    intro c hc
    simp [changed?, h.counterpart?_eq, hconstraint c hc]
  have hdrops : p.dropConstraintSteps = [] := by
    rw [dropConstraintSteps, h.oldConstraints_eq, heq, List.flatMap_eq_nil_iff]
    intro c hc
    simp [h.counterpart?_eq, hconstraint c hc, hchanged c hc]
  have hdropColumns : p.dropColumnSteps = [] := by
    rw [dropColumnSteps, h.oldColumns_eq, heq, List.flatMap_eq_nil_iff]
    intro c hc
    simp [hcolumn c hc]
  have halters : p.alterColumnSteps = [] := by
    rw [alterColumnSteps, List.flatMap_eq_nil_iff]
    intro c hc
    rw [h.oldColumn?_eq, heq, hcolumn c hc]
    cases hstyle : p.dialect.alterColumnStyle <;>
      simp [alterColumnStep, hstyle, needsModify, defaultSteps, nullSteps]
  have haddColumns : p.addColumnSteps = [] := by
    rw [addColumnSteps, List.flatMap_eq_nil_iff]
    intro c hc
    simp [h.oldColumn?_eq, heq, hcolumn c hc]
  have hadds : p.addConstraintSteps = [] := by
    rw [addConstraintSteps, List.flatMap_eq_nil_iff]
    intro c hc
    have hexisted : p.existed c = true := by
      rw [h.existed_eq, heq, List.any_eq_true]
      exact ⟨c, hc, beq_self_eq_true _⟩
    have hwas : p.wasChanged c = false := by
      rw [wasChanged, h.oldConstraints_eq, heq, List.filterMap_eq_nil_iff.mpr hchanged]
      rfl
    simp [hexisted, hwas]
  rw [steps, columnSteps, h.renameConstraintSteps_eq, hdrops, h.columnRenames, hdropColumns,
    halters, haddColumns, hadds]
  simp [optionSteps, heq, Step.work]

end TablePair

theorem objects_filter_ne (s : Script) (o : SchemaObject) :
    objects (s.filter (· != o.statement)) = (objects s).filter (· != o) := by
  induction s with
  | nil => rfl
  | cons statement s ih =>
      by_cases heq : statement = o.statement
      · subst heq
        simpa [objects] using ih
      · have hne : ofStatement? statement ≠ some o := fun h => heq (ofStatement?_eq_some.mp h)
        rw [List.filter_cons_of_pos (by simpa using heq)]
        cases hs : ofStatement? statement with
        | none => simpa [objects, hs] using ih
        | some x =>
            have hx : x ≠ o := fun h => hne (hs.trans (congrArg some h))
            simpa [objects, hs, hx] using ih

theorem objectRefusals_filter_ne (s : Script) (o : SchemaObject) :
    objectRefusals (s.filter (· != o.statement)) = objectRefusals s := by
  rw [objectRefusals, objectRefusals, List.filterMap_filter]
  refine List.filterMap_congr fun statement _ => ?_
  by_cases heq : statement = o.statement
  · simp [heq]
  · simp [heq]

namespace SchemaPair

variable {p : SchemaPair} {o : SchemaObject}

-- The two schemas without an object.
def without (p : SchemaPair) (o : SchemaObject) : SchemaPair :=
  { p with
    before := p.before.filter (· != o.statement)
    after := p.after.filter (· != o.statement) }

-- Both schemas have the object, and nothing else of its kind and name.
structure Shares (p : SchemaPair) (o : SchemaObject) : Prop where
  before : o ∈ objects p.before
  after : o ∈ objects p.after
  aloneBefore : ∀ x ∈ objects p.before, x.key = o.key → x = o
  aloneAfter : ∀ x ∈ objects p.after, x.key = o.key → x = o
  columns : o.columnNames.Nodup
  constraints : o.constraintNames.Nodup

theorem objects_before_without : objects (p.without o).before = (objects p.before).filter (· != o) :=
  objects_filter_ne p.before o

theorem objects_after_without : objects (p.without o).after = (objects p.after).filter (· != o) :=
  objects_filter_ne p.after o

-- The search for another key does not miss the object.
theorem find?_filter_ne {key : ObjectKey} (hkey : key ≠ o.key) (os : List SchemaObject) :
    (os.filter (· != o)).reverse.find? (·.key == key) = os.reverse.find? (·.key == key) := by
  rw [← List.filter_reverse, List.find?_filter]
  congr 1
  funext x
  by_cases hx : x = o
  · simp [hx, Ne.symm hkey]
  · simp [hx, Bool.beq_eq_decide_eq]

theorem old?_without (h : p.options = .default) {key : ObjectKey} (hkey : key ≠ o.key) :
    (p.without o).old? key = p.old? key := by
  have hoptions : (p.without o).options = .default := h
  simp only [old?, oldKey_eq h, oldKey_eq hoptions, objects_before_without]
  exact find?_filter_ne hkey _

theorem new?_without {key : ObjectKey} (hkey : key ≠ o.key) :
    (p.without o).new? key = p.new? key := by
  simp only [new?, objects_after_without]
  exact find?_filter_ne hkey _

namespace Shares

theorem old?_eq (ho : p.Shares o) (h : p.options = .default) : p.old? o.key = some o := by
  have hsome : (p.old? o.key).isSome = true :=
    List.find?_isSome.mpr ⟨o, List.mem_reverse.mpr ho.before, by simp [oldKey_eq h]⟩
  obtain ⟨x, hx⟩ := Option.isSome_iff_exists.mp hsome
  have hkey : x.key = o.key := by simpa [oldKey_eq h] using List.find?_some hx
  rw [hx, ho.aloneBefore x (List.mem_reverse.mp (List.mem_of_find?_eq_some hx)) hkey]

theorem new?_eq (ho : p.Shares o) : p.new? o.key = some o := by
  have hsome : (p.new? o.key).isSome = true :=
    List.find?_isSome.mpr ⟨o, List.mem_reverse.mpr ho.after, by simp⟩
  obtain ⟨x, hx⟩ := Option.isSome_iff_exists.mp hsome
  have hkey : x.key = o.key := by simpa using List.find?_some hx
  rw [hx, ho.aloneAfter x (List.mem_reverse.mp (List.mem_of_find?_eq_some hx)) hkey]

theorem drops_eq (ho : p.Shares o) (h : p.options = .default) :
    (p.without o).drops = p.drops := by
  have hoptions : (p.without o).options = .default := h
  simp only [drops]
  refine congrArg₂ List.map rfl ?_
  rw [objects_before_without, ← List.filter_reverse, List.filter_filter]
  refine List.filter_congr fun x hx => ?_
  by_cases heq : x = o
  · subst heq
    have hkept : p.isDropped x = false := by
      unfold isDropped
      rw [oldKey_eq h, ho.new?_eq]
      cases x with
      | table t => rfl
      | index i => simp [indexChanged_eq h]
    simp [hkept]
  · have hkey : x.key ≠ o.key := fun hkey =>
      heq (ho.aloneBefore x (List.mem_reverse.mp hx) hkey)
    have hsame : (p.without o).isDropped x = p.isDropped x := by
      unfold isDropped
      simp only [oldKey_eq h, oldKey_eq hoptions, new?_without hkey]
      rfl
    simp [heq, hsame]

theorem creates_eq (ho : p.Shares o) (h : p.options = .default) :
    (p.without o).creates = p.creates := by
  simp only [creates]
  refine congrArg₂ List.map rfl ?_
  rw [objects_after_without, List.filter_filter]
  refine List.filter_congr fun x hx => ?_
  by_cases heq : x = o
  · simp [heq, ho.old?_eq h]
  · have hkey : x.key ≠ o.key := fun hkey => heq (ho.aloneAfter x hx hkey)
    simp [heq, old?_without h hkey]

theorem work_alterSteps (ho : p.Shares o) (h : p.options = .default) :
    Step.work (p.alterSteps o) = [] := by
  unfold alterSteps
  rw [ho.old?_eq h]
  cases o with
  | index i => simp [indexChanged_eq h, Step.work]
  | table t =>
      exact TablePair.work_steps_of_eq (tablePair_unhinted h t t) rfl ho.columns ho.constraints

theorem work_alters (ho : p.Shares o) (h : p.options = .default) :
    Step.work (p.without o).alters = Step.work p.alters := by
  have hsame : ∀ x ∈ (objects p.after).filter (· != o),
      (p.without o).alterSteps x = p.alterSteps x := by
    intro x hx
    obtain ⟨hx, hne⟩ := List.mem_filter.mp hx
    have hkey : x.key ≠ o.key := fun hkey => absurd (ho.aloneAfter x hx hkey) (by simpa using hne)
    unfold alterSteps
    rw [old?_without h hkey]
    rfl
  rw [alters, objects_after_without, List.flatMap_congr hsame]
  refine Step.work_flatMap_filter fun x _ hx => ?_
  obtain rfl : x = o := by simpa using hx
  exact ho.work_alterSteps h

theorem work_steps (ho : p.Shares o) (h : p.options = .default) :
    Step.work (p.without o).steps = Step.work p.steps := by
  have hrefusals : (p.without o).refusals = p.refusals := by
    simp only [refusals, without, objectRefusals_filter_ne, h, Options.default, List.filterMap_nil]
  have hrenames : (p.without o).renames = p.renames := by
    simp only [renames, without, h, Options.default, List.flatMap_nil]
  simp only [steps, Step.work_append, hrefusals, hrenames, ho.drops_eq h, ho.creates_eq h,
    ho.work_alters h]

end Shares

-- A plan is about the objects of the two schemas and the indexes that their tables declare.
theorem about_steps (h : p.options = .default) :
    Step.Emits (subject · ∈ (objects p.before ++ objects p.after).flatMap subjects) p.steps := by
  have hkey : ∀ x ∈ objects p.before ++ objects p.after,
      x.key ∈ (objects p.before ++ objects p.after).flatMap subjects :=
    fun x hx => List.mem_flatMap.mpr ⟨x, hx, List.mem_cons_self⟩
  have hinline : ∀ x ∈ objects p.before ++ objects p.after, ∀ key ∈ x.inlineKeys,
      key ∈ (objects p.before ++ objects p.after).flatMap subjects :=
    fun x hx key hk => List.mem_flatMap.mpr ⟨x, hx, List.mem_cons_of_mem _ hk⟩
  intro s hs
  cases plans_steps s hs with
  | renameTable hold hnew => exact hkey _ (List.mem_append_left _ hold)
  | drop hold =>
      rw [subject_dropStatement]
      exact hkey _ (List.mem_append_left _ hold)
  | create hnew =>
      rw [subject_statement]
      exact hkey _ (List.mem_append_right _ hnew)
  | alter hold hnew hplans =>
      exact TablePair.subject_of_plans hplans (tablePair_unhinted h _ _)
        (hkey _ (List.mem_append_right _ hnew)) (hinline _ (List.mem_append_left _ hold))
        (hinline _ (List.mem_append_right _ hnew))

end SchemaPair

-- An object that both schemas define alike, each under a kind and name that nothing else in it has,
-- adds nothing to a migration: the plan for the two schemas without it yields the same
-- statements. None of them is about the object; at most they are about an index which a
-- table declares under the same name.
theorem diff_without {d : Dialect} {before after m : Script} {o : SchemaObject}
    (ho : SchemaPair.Shares ⟨d, .default, before, after⟩ o)
    (h : diff d .default (some before) (some after) = .ok m) :
    Step.result (SchemaPair.without ⟨d, .default, before, after⟩ o).steps = .ok m ∧
      ∀ s ∈ m, subject s = o.key → o.key ∈ (objects before ++ objects after).flatMap inlineKeys := by
  obtain ⟨hrefusal, hstatements, hne⟩ := diff_eq_ok h
  by_cases hsame : before.identity = after.identity
  · simp [steps, hsame] at hstatements
    exact absurd hstatements hne
  simp only [steps, if_neg hsame] at hrefusal hstatements
  have hresult : Step.result (SchemaPair.without ⟨d, .default, before, after⟩ o).steps = .ok m := by
    rw [← Step.result_work, ho.work_steps rfl, Step.result_work, Step.result, hrefusal, hstatements]
  refine ⟨hresult, fun s hs hsubject => ?_⟩
  have hplanned : s ∈ Step.statements (SchemaPair.without ⟨d, .default, before, after⟩ o).steps := by
    rwa [← Step.statements_work, ho.work_steps rfl, Step.statements_work, hstatements]
  obtain ⟨x, hx, hkey⟩ := List.mem_flatMap.mp (SchemaPair.about_steps rfl s hplanned)
  rw [hsubject] at hkey
  rw [SchemaPair.objects_before_without, SchemaPair.objects_after_without, ← List.filter_append,
    List.mem_filter] at hx
  obtain ⟨hx, hne⟩ := hx
  refine List.mem_flatMap.mpr ⟨x, hx, (List.mem_cons.mp hkey).resolve_left fun hkey => ?_⟩
  -- Nothing that is left has the key of the object.
  have heq : x = o := (List.mem_append.mp hx).elim (ho.aloneBefore x · hkey.symm)
    (ho.aloneAfter x · hkey.symm)
  simp [heq] at hne

-- A table of bare columns, each with the name of its type.
def bareTable (name : ObjectName) (columns : List (String × String)) : CreateTable :=
  ⟨false, name, columns.map fun c => ⟨.bare c.1, ⟨c.2, [], [], 0⟩, false, none, false⟩, [], []⟩

def bareIndex (name table column : String) : CreateIndex :=
  ⟨false, false, .ofIdent (.bare name), .ofIdent (.bare table), none, [.ascending (.bare column)],
    none⟩

-- The table that changes next to the others.
def neighbour : CreateTable :=
  bareTable (.ofIdent (.bare "u")) [("z", "INT")]

-- The column of the other table is the only thing to be done.
theorem diff_without_neighbour :
    let t := bareTable (.ofIdent (.bare "t")) [("a", "INT"), ("b", "INT")]
    let before : Script :=
      [.createTable t, .createTable (bareTable (.ofIdent (.bare "u")) [("y", "INT")])]
    let after : Script := [.createTable neighbour, .createTable t]
    ∃ m, diff .postgres .default (some before) (some after) = .ok m ∧ m.length = 2 ∧
      Step.result (SchemaPair.without ⟨.postgres, .default, before, after⟩ (.table t)).steps =
        .ok m ∧
      ∀ s ∈ m, subject s ≠ .table "t" := by
  intro t before after
  have hshares : SchemaPair.Shares ⟨.postgres, .default, before, after⟩ (.table t) :=
    ⟨by decide, by decide, by decide, by decide, by decide, by decide⟩
  have hlength : (diff .postgres .default (some before) (some after)).toOption.map List.length =
      some 2 := by
    decide +kernel
  cases h : diff .postgres .default (some before) (some after) with
  | error e => simp [h, Except.toOption] at hlength
  | ok m =>
      obtain ⟨hresult, habout⟩ := diff_without hshares h
      refine ⟨m, rfl, by simpa [h, Except.toOption] using hlength, hresult, fun s hs hsubject => ?_⟩
      exact absurd (habout s hs hsubject) (by decide)

def SchemaObject.qualifiedTable? : SchemaObject → Option (Option String × String)
  | table t => some (t.name.schema.map Ident.name, t.name.identity)
  | index _ => none

def SchemaObject.qualifiedIndex? : SchemaObject → Option (String × String)
  | table _ => none
  | index i => some (i.name.identity, i.table.identity)

-- Tables are told apart by their schema and name, indexes by their name and table.
def ApartQualified (os : List SchemaObject) : Prop :=
  (os.filterMap qualifiedTable?).Nodup ∧ (os.filterMap qualifiedIndex?).Nodup ∧
    ∀ o ∈ os, o.constraintNames.Nodup

instance (os : List SchemaObject) : Decidable (ApartQualified os) :=
  inferInstanceAs (Decidable ((os.filterMap qualifiedTable?).Nodup ∧
    (os.filterMap qualifiedIndex?).Nodup ∧ ∀ o ∈ os, o.constraintNames.Nodup))

-- A schema stays as it is and gets one more table, yet the migration has another statement.
def Disturbed (d : Dialect) (text : String) (s : Script) (statement : Statement) : Prop :=
  Script.parse d text = .ok s ∧
    Script.parse d (text ++ "CREATE TABLE u (z INT);") = .ok (s ++ [.createTable neighbour]) ∧
    ApartQualified (objects (s ++ [.createTable neighbour])) ∧
    ∃ m, diff d .default (some s) (some (s ++ [.createTable neighbour])) = .ok m ∧
      statement ∈ m ∧ statement ≠ .createTable neighbour

-- Where two tables have one name in different schemas, two indexes one name on different tables,
-- or two columns of one table one name, the later of the two passes for the earlier one.
theorem disturbed_shadowed :
    (let a := bareTable ⟨some (.bare "a"), .bare "t"⟩ [("x", "INT")]
    let b := bareTable ⟨some (.bare "b"), .bare "t"⟩ [("y", "INT")]
    Disturbed .postgres "CREATE TABLE a.t (x INT); CREATE TABLE b.t (y INT);"
      [.createTable a, .createTable b] (.alterTable a.name (.dropColumn (.bare "y")))) ∧
    Disturbed .mysql "CREATE INDEX i ON t (a); CREATE INDEX i ON v (b);"
      [.createIndex (bareIndex "i" "t" "a"), .createIndex (bareIndex "i" "v" "b")]
      (.dropIndex false (.ofIdent (.bare "i")) (some (.ofIdent (.bare "t")))) ∧
    (let t := bareTable (.ofIdent (.bare "t")) [("a", "INT"), ("a", "TEXT")]
    Disturbed .postgres "CREATE TABLE t (a INT, a TEXT);" [.createTable t]
      (.alterTable t.name (.alterColumn (.bare "a") (.setDataType ⟨"TEXT", [], [], 0⟩)))) := by
  refine ⟨⟨by decide +kernel, by decide +kernel, by decide, ?_⟩,
    ⟨by decide +kernel, by decide +kernel, by decide, ?_⟩,
    ⟨by decide +kernel, by decide +kernel, by decide, ?_⟩⟩ <;>
  exact ⟨_, rfl, by decide, by decide⟩

end SchemaDiff.Migration
