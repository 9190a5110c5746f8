import SchemaDiff.Proofs.Migration.Orderly
import SchemaDiff.Proofs.Migration.TableOutline

namespace SchemaDiff.Migration

open SchemaObject Outline

namespace SchemaObject

-- The columns of a table of that name.
def columns? (name : String) : SchemaObject → Option (Finset String)
  | table t => if t.name.identity = name then some t.columnNames else none
  | index _ => none

theorem exec_statement (o : Outline) (x : SchemaObject) (name : String) :
    o.exec x.statement name = (o name).or (x.columns? name) := by
  cases x with
  | table t => rfl
  | index i => simp [statement, Outline.exec, columns?]

theorem columns?_eq_some {x : SchemaObject} {name : String} {columns : Finset String} :
    x.columns? name = some columns ↔
      ∃ t, x = table t ∧ t.name.identity = name ∧ t.columnNames = columns := by
  cases x with
  | table t => simp [columns?]
  | index i => simp [columns?]

end SchemaObject

-- The tables among some objects. The first of a name counts.
def outline (os : List SchemaObject) : Outline :=
  fun name => os.findSome? (columns? name)

section Outline

variable {os : List SchemaObject} {name : String} {target : Outline}

theorem outline_append (os os' : List SchemaObject) (name : String) :
    outline (os ++ os') name = (outline os name).or (outline os' name) :=
  List.findSome?_append

theorem execAll_statements (os : List SchemaObject) (o : Outline) (name : String) :
    (watch target).execAll o (os.map statement) name = (o name).or (outline os name) := by
  induction os generalizing o with
  | nil => simp [Watch.execAll, outline]
  | cons x os ih =>
      have hexec : (watch target).exec o x.statement name = (o name).or (x.columns? name) :=
        exec_statement o x name
      rw [List.map_cons, Watch.execAll_cons, ih, hexec, Option.or_assoc]
      have hcons : outline (x :: os) name = (x.columns? name).or (outline os name) := by
        simp only [outline, List.findSome?_cons]
        cases x.columns? name <;> rfl
      rw [hcons]

theorem of_statements (os : List SchemaObject) : Outline.of (os.map statement) = outline os := by
  funext name
  have hstate : (watch .empty).execAll .empty (os.map statement) name =
      none.or (outline os name) := execAll_statements os .empty name
  exact hstate.trans Option.none_or

theorem exec_outline (pre : List SchemaObject) (x : SchemaObject) :
    (outline pre).exec x.statement = outline (pre ++ [x]) := by
  funext name
  rw [exec_statement, outline_append]
  congr 1
  simp only [outline, List.findSome?_cons, List.findSome?_nil]
  cases x.columns? name <;> rfl

theorem exists_table_of_outline {columns : Finset String} (h : outline os name = some columns) :
    ∃ t, .table t ∈ os ∧ t.name.identity = name := by
  obtain ⟨x, hx, hcolumns⟩ := List.exists_of_findSome?_eq_some h
  obtain ⟨t, rfl, hname, -⟩ := columns?_eq_some.mp hcolumns
  exact ⟨t, hx, hname⟩

theorem outline_eq_some (hkeys : (os.map key).Nodup) {t : CreateTable} (ht : .table t ∈ os) :
    outline os t.name.identity = some t.columnNames := by
  have hsome : (outline os t.name.identity).isSome = true :=
    List.findSome?_isSome_iff.mpr ⟨_, ht, by simp [columns?]⟩
  obtain ⟨columns, hcolumns⟩ := Option.isSome_iff_exists.mp hsome
  obtain ⟨x, hx, hfound⟩ := List.exists_of_findSome?_eq_some hcolumns
  obtain ⟨t', rfl, hname, rfl⟩ := columns?_eq_some.mp hfound
  have hsame : SchemaObject.table t' = .table t :=
    List.inj_on_of_nodup_map hkeys hx ht (congrArg ObjectKey.table hname)
  cases hsame
  exact hcolumns

theorem meets_of_follows {pre post : List SchemaObject} {x : SchemaObject}
    (h : (watch target).Follows .empty ((pre ++ x :: post).map statement)) :
    ∀ n ∈ x.statement.needs target, (outline (pre ++ [x])).Meets n := by
  have hstate : (watch target).execAll .empty (pre.map statement) = outline pre :=
    of_statements pre
  rw [List.map_append, List.map_cons, Watch.follows_append, hstate] at h
  have hadmits : (outline pre).Admits target x.statement := h.2.1
  rwa [Admits, exec_outline] at hadmits

-- What is there in a part of the schema is there in a state that has this part.
theorem meets_of_part {pre post : List SchemaObject} {x : SchemaObject} {o : Outline} {n : Need}
    (hos : os = pre ++ x :: post)
    (ho : ∀ t, .table t ∈ pre ++ [x] → o t.name.identity = outline os t.name.identity)
    (h : (outline (pre ++ [x])).Meets n) : o.Meets n := by
  obtain ⟨columns, hcolumns, hnames⟩ := h
  obtain ⟨t, ht, hname⟩ := exists_table_of_outline hcolumns
  have hsplit : os = (pre ++ [x]) ++ post := by simp [hos]
  refine ⟨columns, ?_, hnames⟩
  rw [← hname, ho t ht, hsplit, outline_append, hname, hcolumns]
  rfl

end Outline

namespace SchemaPair

variable {p : SchemaPair} {o : Outline}

-- Two schemas with names of their own for their objects. The new one can be created in its order.
structure Listed (p : SchemaPair) : Prop where
  options : p.options = .default
  before : ((objects p.before).map key).Nodup
  after : ((objects p.after).map key).Nodup
  inOrder :
    (watch (outline (objects p.after))).Follows .empty ((objects p.after).map statement)

-- What the new schema asks of the order of the statements.
abbrev ordering (p : SchemaPair) : Watch Outline :=
  watch (outline (objects p.after))

namespace Listed

theorem meets (h : p.Listed) {pre post : List SchemaObject} {x : SchemaObject}
    (hafter : objects p.after = pre ++ x :: post) :
    ∀ n ∈ x.statement.needs (outline (objects p.after)), (outline (pre ++ [x])).Meets n := by
  have horder := h.inOrder
  nth_rewrite 2 [hafter] at horder
  exact meets_of_follows horder

theorem outline_before_of_none (h : p.Listed) {t : CreateTable}
    (hold : p.old? (SchemaObject.table t).key = none) :
    outline (objects p.before) t.name.identity = none := by
  by_contra hne
  obtain ⟨columns, hcolumns⟩ := Option.ne_none_iff_exists'.mp hne
  obtain ⟨t', ht', hname⟩ := exists_table_of_outline hcolumns
  have hfound := (old?_eq_some h.options h.before).mpr ⟨ht', congrArg ObjectKey.table hname⟩
  simp only [key] at hold
  rw [hold] at hfound
  cases hfound

theorem exists_old_table (h : p.Listed) {t : CreateTable} {x : SchemaObject}
    (hold : p.old? (SchemaObject.table t).key = some x) :
    ∃ old, x = .table old ∧ outline (objects p.before) t.name.identity = some old.columnNames := by
  obtain ⟨hmem, hkey⟩ := (old?_eq_some h.options h.before).mp hold
  cases x with
  | index i => cases hkey
  | table old =>
      refine ⟨old, rfl, ?_⟩
      rw [← ObjectKey.table.inj hkey]
      exact outline_eq_some h.before hmem

theorem exec_dropStatement (h : p.Listed) {x : SchemaObject} (hd : p.isDropped x = true)
    {onTable : ObjectName → ObjectName} {t : CreateTable} (ht : .table t ∈ objects p.after) :
    o.exec (x.dropStatement p.dialect onTable) t.name.identity = o t.name.identity := by
  cases x with
  | index i => rfl
  | table old =>
      refine Function.update_of_ne (fun hname => ?_) _ _
      have hnew := (new?_eq_some h.after).mpr ⟨ht, congrArg ObjectKey.table hname⟩
      simp [isDropped, oldKey_eq h.options, key, hnew] at hd

-- Only tables that are no more are dropped.
theorem execAll_drops (h : p.Listed) {t : CreateTable} (ht : .table t ∈ objects p.after) :
    p.ordering.execAll o (Step.statements p.drops) t.name.identity = o t.name.identity := by
  rw [drops, Step.statements_map_emit]
  refine Watch.execAll_of (P := fun o' : Outline => o' t.name.identity = o t.name.identity)
    (fun s hs o' ho => ?_) rfl
  obtain ⟨x, hx, rfl⟩ := List.mem_map.mp hs
  exact (h.exec_dropStatement (List.mem_filter.mp hx).2 ht).trans ho

theorem follows_drops : p.ordering.Follows o (Step.statements p.drops) := by
  rw [drops, Step.statements_map_emit]
  refine follows_of_no_needs fun s hs => ?_
  obtain ⟨x, -, rfl⟩ := List.mem_map.mp hs
  cases x <;> rfl

-- The state in a pass over what is new: the old tables, and the new ones of a part of the schema.
def Growing (p : SchemaPair) (pre : List SchemaObject) (o : Outline) : Prop :=
  ∀ t, .table t ∈ objects p.after → o t.name.identity =
    (outline (objects p.before) t.name.identity).or (outline pre t.name.identity)

-- A new object is created in order if it names only columns that its tables had before. The new
-- columns of these tables are not there yet.
theorem follows_create (h : p.Listed) {pre post : List SchemaObject} {x : SchemaObject}
    (hafter : objects p.after = pre ++ x :: post) (ho : Growing p pre o) :
    p.ordering.Follows o [x.statement] ↔
      ∀ n ∈ x.statement.needs (outline (objects p.after)),
        ∀ columns ∈ outline (objects p.before) n.table, ∀ name ∈ n.columns, name ∈ columns := by
  rw [Watch.follows_singleton]
  refine forall₂_congr fun n hn => ?_
  obtain ⟨columns, hcolumns, hnames⟩ := h.meets hafter n hn
  obtain ⟨t, ht, hname⟩ := exists_table_of_outline hcolumns
  have hmem : .table t ∈ objects p.after := by
    rw [hafter]
    rcases List.mem_append.mp ht with ht | ht
    · simp [ht]
    · simp [List.mem_singleton.mp ht]
  have hstate : o.exec x.statement n.table =
      (outline (objects p.before) n.table).or (outline (pre ++ [x]) n.table) := by
    have hnow := ho t hmem
    rw [hname] at hnow
    rw [← exec_outline, exec_statement, exec_statement, hnow, Option.or_assoc]
  rw [Meets, hstate, hcolumns]
  cases outline (objects p.before) n.table with
  | none => simpa using hnames
  | some old => simp

theorem follows_creates (h : p.Listed) (ho : Growing p [] o) :
    Growing p (objects p.after) (p.ordering.execAll o (Step.statements p.creates)) ∧
    (p.ordering.Follows o (Step.statements p.creates) ↔
      ∀ x ∈ objects p.after, p.old? x.key = none →
        ∀ n ∈ x.statement.needs (outline (objects p.after)),
          ∀ columns ∈ outline (objects p.before) n.table, ∀ name ∈ n.columns, name ∈ columns) := by
  rw [creates, Step.statements_map_emit, TablePair.map_filter_eq_flatMap]
  refine Watch.follows_flatMap ho fun pre x post o hafter hknown => ?_
  cases hold : p.old? x.key with
  | none =>
      simp only [Option.isNone_none, if_true]
      refine ⟨fun t ht => ?_, by simpa using h.follows_create hafter hknown⟩
      have hexec : p.ordering.execAll o [x.statement] = o.exec x.statement := rfl
      rw [hexec, exec_statement, hknown t ht, Option.or_assoc, ← exec_outline, exec_statement]
  | some old =>
      simp only [Option.isNone_some, Bool.false_eq_true, if_false]
      refine ⟨fun t ht => ?_, by simp [Watch.Follows]⟩
      -- An object that was there is no new table.
      have hsame : (outline (objects p.before) t.name.identity).or
          (outline (pre ++ [x]) t.name.identity) =
          (outline (objects p.before) t.name.identity).or (outline pre t.name.identity) := by
        rw [← exec_outline, exec_statement]
        cases hx : x.columns? t.name.identity with
        | none => rw [Option.or_none]
        | some columns =>
            obtain ⟨t', rfl, hname, -⟩ := columns?_eq_some.mp hx
            obtain ⟨old, -, hbefore⟩ := h.exists_old_table hold
            rw [hname] at hbefore
            rw [hbefore, Option.some_or, Option.some_or]
      rw [hsame]
      exact hknown t ht

-- The state in a pass over the tables of the new schema: those that had their turn are as they
-- are to be, the others have their old columns.
structure Halfway (p : SchemaPair) (pre : List SchemaObject) (o : Outline) : Prop where
  done : ∀ t, .table t ∈ pre → o t.name.identity = outline (objects p.after) t.name.identity
  waiting : ∀ t, .table t ∈ objects p.after → .table t ∉ pre → o t.name.identity =
    (outline (objects p.before) t.name.identity).or (outline (objects p.after) t.name.identity)

theorem halfway_index {pre : List SchemaObject} {i : CreateIndex} (ho : Halfway p pre o) :
    Halfway p (pre ++ [.index i]) o :=
  ⟨fun t ht => ho.done t (by simpa using ht), fun t ht hn => ho.waiting t ht (by simpa using hn)⟩

theorem leads_alterIndex (h : p.Listed) {pre post : List SchemaObject} {i : CreateIndex}
    (hafter : objects p.after = pre ++ .index i :: post) (ho : Halfway p pre o) :
    p.ordering.Leads o (Step.statements (p.alterSteps (.index i))) o := by
  refine leads_of_meets fun s hs => ?_
  have hs : s = .createIndex i := by
    unfold alterSteps at hs
    split at hs
    · rename_i hnew
      cases hnew
      split at hs
      · simpa using hs
      · cases hs
    · rename_i hnew
      cases hnew
    · cases hs
  subst hs
  refine ⟨rfl, fun n hn => ?_⟩
  exact meets_of_part hafter (fun t ht => ho.done t (by simpa using ht)) (h.meets hafter n hn)

theorem notMem_of_keys (h : p.Listed) {pre post : List SchemaObject} {t : CreateTable}
    (hafter : objects p.after = pre ++ .table t :: post) :
    ∀ t', .table t' ∈ pre → t'.name.identity ≠ t.name.identity := by
  have hkeys := h.after
  rw [hafter, List.map_append, List.map_cons, List.nodup_append] at hkeys
  intro t' ht' hname
  exact hkeys.2.2 _ (List.mem_map_of_mem ht') _ (List.mem_cons_self) (congrArg ObjectKey.table hname)

-- When a table had its turn, it has its new columns.
theorem halfway_update (h : p.Listed) {pre post : List SchemaObject} {t : CreateTable}
    (hafter : objects p.after = pre ++ .table t :: post) (ho : Halfway p pre o) :
    Halfway p (pre ++ [.table t]) (Function.update o t.name.identity (some t.columnNames)) := by
  have ht : .table t ∈ objects p.after := by simp [hafter]
  have hnew := outline_eq_some h.after ht
  constructor
  · intro t' ht'
    by_cases hname : t'.name.identity = t.name.identity
    · rw [hname, Function.update_self, hnew]
    · rw [Function.update_of_ne hname]
      refine ho.done t' ?_
      rcases List.mem_append.mp ht' with hpre | hlast
      · exact hpre
      · cases List.mem_singleton.mp hlast
        exact absurd rfl hname
  · intro t' ht' hn
    have hname : t'.name.identity ≠ t.name.identity := by
      intro hname
      have hsame : SchemaObject.table t' = .table t :=
        List.inj_on_of_nodup_map h.after ht' ht (congrArg ObjectKey.table hname)
      exact hn (by simp [hsame])
    rw [Function.update_of_ne hname]
    exact ho.waiting t' ht' fun hpre => hn (by simp [hpre])

theorem leads_alterTable (h : p.Listed) {pre post : List SchemaObject} {t : CreateTable}
    (hafter : objects p.after = pre ++ .table t :: post) (ho : Halfway p pre o)
    (hrefusal : Step.refusal? (p.alterSteps (.table t)) = none) :
    ∃ o', p.ordering.Leads o (Step.statements (p.alterSteps (.table t))) o' ∧
      Halfway p (pre ++ [.table t]) o' := by
  have ht : .table t ∈ objects p.after := by simp [hafter]
  have hlast := ho.waiting t ht fun hm => h.notMem_of_keys hafter t hm rfl
  have hupdate := h.halfway_update hafter ho
  cases hold : p.old? (SchemaObject.table t).key with
  | none =>
      have hsteps : p.alterSteps (.table t) = [] := by simp [alterSteps, hold]
      rw [h.outline_before_of_none hold, Option.none_or, outline_eq_some h.after ht] at hlast
      rw [← hlast, Function.update_eq_self] at hupdate
      rw [hsteps]
      exact ⟨o, Watch.leads_nil.mpr rfl, hupdate⟩
  | some x =>
      obtain ⟨old, rfl, hbefore⟩ := h.exists_old_table hold
      have hsteps : p.alterSteps (.table t) = (p.tablePair old t).steps := by
        simp [alterSteps, hold]
      rw [hbefore, Option.some_or] at hlast
      rw [hsteps] at hrefusal ⊢
      refine ⟨_, TablePair.leads_steps (tablePair_unhinted h.options old t) hrefusal hlast ?_,
        hupdate⟩
      exact fun n hn => meets_of_part hafter hupdate.done (h.meets hafter n hn)

theorem follows_alters (h : p.Listed) (hrefusal : Step.refusal? p.alters = none)
    (ho : Growing p (objects p.after) o) :
    p.ordering.Follows o (Step.statements p.alters) := by
  rw [alters, Step.statements_flatMap]
  refine (Watch.follows_flatMap (K := Halfway p) (P := fun _ => True)
    ⟨by simp, fun t ht _ => ho t ht⟩ fun pre x post o hafter hknown => ?_).2.mpr
      fun _ _ => trivial
  cases x with
  | index i =>
      obtain ⟨horder, hstate⟩ := h.leads_alterIndex hafter hknown
      rw [hstate]
      exact ⟨halfway_index hknown, iff_true_intro horder⟩
  | table t =>
      have hmem : .table t ∈ objects p.after := by simp [hafter]
      obtain ⟨o', ⟨horder, rfl⟩, hstate⟩ := h.leads_alterTable hafter hknown
        (Step.refusal?_eq_none_of_mem hrefusal fun step hs => List.mem_flatMap.mpr ⟨_, hmem, hs⟩)
      exact ⟨hstate, iff_true_intro horder⟩

theorem follows_steps (h : p.Listed) (hrefusal : Step.refusal? p.steps = none) :
    p.ordering.Follows (outline (objects p.before)) (Step.statements p.steps) ↔
      ∀ x ∈ objects p.after, p.old? x.key = none →
        ∀ n ∈ x.statement.needs (outline (objects p.after)),
          ∀ columns ∈ outline (objects p.before) n.table, ∀ name ∈ n.columns, name ∈ columns := by
  have halters : Step.refusal? p.alters = none :=
    Step.refusal?_eq_none_of_mem hrefusal fun step hs => by simp [steps, hs]
  have hrenames : p.renames = [] := by simp [renames, h.options, Options.default]
  have hdropped : Growing p []
      (p.ordering.execAll (outline (objects p.before)) (Step.statements p.drops)) := by
    intro t ht
    rw [h.execAll_drops ht]
    exact (Option.or_none).symm
  obtain ⟨hgrown, hcreates⟩ := h.follows_creates hdropped
  rw [steps, hrenames, List.append_nil, Step.statements_append, Step.statements_append,
    Step.statements_append, statements_refusals, List.nil_append, Watch.follows_append,
    Watch.follows_append, Watch.execAll_append, ← hcreates]
  constructor
  · exact fun hall => hall.1.2
  · exact fun hnew => ⟨⟨follows_drops, hnew⟩, h.follows_alters halters hgrown⟩

end Listed

end SchemaPair

-- A schema with names of their own for its objects, each of them behind what it names.
structure Listing (s : Script) : Prop where
  creates : ∀ statement ∈ s, statement.Creates
  keys : ((objects s).map key).Nodup
  inOrder : (watch (.of s)).Follows .empty s

-- Of a table that was there before, what is new names no column that is new as well.
def Timely (before after : Script) : Prop :=
  ∀ new ∈ objects after, new.key ∉ (objects before).map key →
    ∀ n ∈ new.statement.needs (.of after), ∀ columns ∈ Outline.of before n.table,
      ∀ name ∈ n.columns, name ∈ columns

instance (before after : Script) : Decidable (Timely before after) :=
  inferInstanceAs (Decidable (∀ new ∈ objects after, new.key ∉ (objects before).map key →
    ∀ n ∈ new.statement.needs (.of after), ∀ columns ∈ Outline.of before n.table,
      ∀ name ∈ n.columns, name ∈ columns))

theorem of_eq_outline {s : Script} (h : ∀ statement ∈ s, statement.Creates) :
    Outline.of s = outline (objects s) := by
  rw [← of_statements, map_statement_objects h]

-- Whatever a migration creates comes behind what it names exactly if the new objects do without
-- the new columns of old tables: such columns are added behind all new objects.
theorem diff_inOrder_iff {d : Dialect} {before after : Option Script} {m : Script}
    (hbefore : ∀ s ∈ before, Listing s) (hafter : ∀ s ∈ after, Listing s)
    (h : diff d .default before after = .ok m) :
    (watch (.of (after.getD []))).Follows (.of (before.getD [])) m ↔
      Timely (before.getD []) (after.getD []) := by
  obtain ⟨hrefusal, rfl, hne⟩ := diff_eq_ok h
  cases before with
  | none =>
      cases after with
      | none => exact absurd rfl hne
      | some s =>
          rw [statements_steps_none]
          refine iff_of_true (hafter s rfl).inOrder ?_
          rintro x - - n - columns hcolumns
          cases hcolumns
  | some s =>
      cases after with
      | none =>
          refine iff_of_true ?_ (by simp [Timely, objects])
          refine follows_of_no_needs fun statement hs => ?_
          rw [steps, statements_dropAll] at hs
          obtain ⟨x, -, rfl⟩ := List.mem_map.mp hs
          cases x <;> rfl
      | some s' =>
          have hb := hbefore s rfl
          have ha := hafter s' rfl
          have hlisted : SchemaPair.Listed ⟨d, .default, s, s'⟩ := by
            refine ⟨rfl, hb.keys, ha.keys, ?_⟩
            rw [map_statement_objects ha.creates, ← of_eq_outline ha.creates]
            exact ha.inOrder
          by_cases hsame : s.identity = s'.identity
          · simp [steps, hsame] at hne
          · simp only [steps, if_neg hsame] at hrefusal ⊢
            simp only [Option.getD_some, Timely]
            rw [of_eq_outline ha.creates, of_eq_outline hb.creates, hlisted.follows_steps hrefusal]
            refine forall₂_congr fun x hx => ?_
            rw [SchemaPair.old?_eq_none hlisted.options hlisted.before]

-- A table, and the same table with another column and an index.
def narrow : Script := [
  .createTable ⟨false, .ofIdent (.bare "t"),
    [⟨.bare "a", ⟨"INT", [], [], 0⟩, false, none, false⟩], [], []⟩]

def wide (indexed : String) : Script := [
  .createTable ⟨false, .ofIdent (.bare "t"),
    [⟨.bare "a", ⟨"INT", [], [], 0⟩, false, none, false⟩,
      ⟨.bare "b", ⟨"INT", [], [], 0⟩, false, none, false⟩], [], []⟩,
  .createIndex ⟨false, false, .ofIdent (.bare "i"), .ofIdent (.bare "t"), none,
    [.ascending (.bare indexed)], none⟩]

theorem listing_narrow : Listing narrow :=
  ⟨by decide, by decide, by decide +kernel⟩

theorem listing_wide {indexed : String} (h : indexed ∈ ["a", "b"]) : Listing (wide indexed) := by
  simp only [List.mem_cons, List.not_mem_nil, or_false] at h
  rcases h with rfl | rfl
  · exact ⟨by decide, by decide, by decide +kernel⟩
  · exact ⟨by decide, by decide, by decide +kernel⟩

-- An index over the old column is in order, though a column is added behind it.
theorem diff_inOrder_wide : ∃ m, diff .postgres .default (some narrow) (some (wide "a")) = .ok m ∧
    m.length = 2 ∧ (watch (.of (wide "a"))).Follows (.of narrow) m := by
  have hlength : (diff .postgres .default (some narrow) (some (wide "a"))).toOption.map
      List.length = some 2 := by
    decide +kernel
  cases h : diff .postgres .default (some narrow) (some (wide "a")) with
  | error e => simp [h, Except.toOption] at hlength
  | ok m =>
      refine ⟨m, rfl, by simpa [h, Except.toOption] using hlength, ?_⟩
      have hbefore : ∀ s ∈ some narrow, Listing s := by simpa using listing_narrow
      have hafter : ∀ s ∈ some (wide "a"), Listing s := by simpa using listing_wide (by decide)
      exact (diff_inOrder_iff hbefore hafter h).mpr (by decide +kernel)

-- An index over the new column is created ahead of its column.
theorem not_inOrder_wide : ∃ m,
    Script.parse .postgres "CREATE TABLE t (a INT);" = .ok narrow ∧
    Script.parse .postgres "CREATE TABLE t (a INT, b INT); CREATE INDEX i ON t (b);" =
      .ok (wide "b") ∧
    Listing narrow ∧ Listing (wide "b") ∧
    diff .postgres .default (some narrow) (some (wide "b")) = .ok m ∧
    ¬(watch (.of (wide "b"))).Follows (.of narrow) m := by
  have horder : (diff .postgres .default (some narrow) (some (wide "b"))).toOption.map
      (fun m => decide ((watch (.of (wide "b"))).Follows (.of narrow) m)) = some false := by
    decide +kernel
  cases h : diff .postgres .default (some narrow) (some (wide "b")) with
  | error e => simp [h, Except.toOption] at horder
  | ok m =>
      refine ⟨m, by decide +kernel, by decide +kernel, listing_narrow, listing_wide (by decide),
        rfl, ?_⟩
      simpa [h, Except.toOption] using horder

end SchemaDiff.Migration
