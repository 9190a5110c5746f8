import SchemaDiff.Proofs.Migration.AlikeTables
import SchemaDiff.Proofs.Migration.Passes

namespace SchemaDiff.Migration

open SchemaObject

-- Two outcomes that differ in nothing but how names are written.
inductive SameResult : Except DiffError Script → Except DiffError Script → Prop
  | noDifference : SameResult (.error .noDifference) (.error .noDifference)
  | notSupported {r r' : Refusal} (h : r.reason = r'.reason) :
      SameResult (.error (.notSupported r)) (.error (.notSupported r'))
  | ok {m m' : Script} (hkinds : m.map Statement.kind = m'.map Statement.kind)
      (hidentity : m.map Statement.identity = m'.map Statement.identity) :
      SameResult (.ok m) (.ok m')

namespace Step

theorem refusal?_alike {first second : List Step} (h : List.Forall₂ Alike first second) :
    Option.Rel (fun r r' => r.reason = r'.reason) (refusal? first) (refusal? second) := by
  refine rel_findSome? h fun step step' hstep => ?_
  cases hstep with
  | refuse h => exact .some h
  | _ => exact .none

theorem statements_alike {first second : List Step} (h : List.Forall₂ Alike first second) :
    List.Forall₂ (fun s s' => s.kind = s'.kind ∧ s.identity = s'.identity) (statements first)
      (statements second) := by
  refine List.rel_filterMap (fun step step' hstep => ?_) h
  cases hstep with
  | emit hkind hidentity => exact .some ⟨hkind, hidentity⟩
  | _ => exact .none

end Step

theorem sameResult_of_steps {d : Dialect} {options : Options}
    {before before' after after' : Option Script}
    (h : List.Forall₂ Step.Alike (steps d options before after) (steps d options before' after')) :
    SameResult (diff d options before after) (diff d options before' after') := by
  have hrefusal := Step.refusal?_alike h
  have hstatements := Step.statements_alike h
  unfold diff Step.result
  generalize Step.refusal? (steps d options before after) = r,
    Step.refusal? (steps d options before' after') = r' at hrefusal ⊢
  generalize Step.statements (steps d options before after) = m,
    Step.statements (steps d options before' after') = m' at hstatements ⊢
  cases hrefusal with
  | some h => exact .notSupported h
  | none =>
      cases hstatements with
      | nil => exact .noDifference
      | @cons s s' _ _ hfirst hrest =>
          have hkinds := map_eq_map_iff.mpr (hrest.imp fun _ _ hs => hs.1)
          have hidentity := map_eq_map_iff.mpr (hrest.imp fun _ _ hs => hs.2)
          exact .ok (List.cons_eq_cons.mpr ⟨hfirst.1, hkinds⟩)
            (List.cons_eq_cons.mpr ⟨hfirst.2, hidentity⟩)

namespace SchemaObject

-- Objects of schemas that are alike. The constraints of a table are told apart.
inductive Alike : SchemaObject → SchemaObject → Prop
  | table {t t' : CreateTable} (h : t.AlikeBy Column.Alike t')
      (hnames : (t.constraints.map (·.name.name)).Nodup) : Alike (.table t) (.table t')
  | index {i i' : CreateIndex} (h : i.Alike i') : Alike (.index i) (.index i')

variable {x x' : SchemaObject}

theorem Alike.key_eq (h : x.Alike x') : x.key = x'.key := by
  cases h with
  | table h => exact congrArg ObjectKey.table h.name
  | index h => exact congrArg ObjectKey.index h.name

theorem Alike.statement (h : x.Alike x') : Step.Alike (.emit x.statement) (.emit x'.statement) := by
  cases h with
  | table h => exact .emit rfl h.identity_eq
  | index h => exact .emit rfl h.identity_eq

theorem Alike.dropStatement (h : x.Alike x') (d : Dialect) (onTable : ObjectName → ObjectName) :
    Step.Alike (.emit (x.dropStatement d onTable)) (.emit (x'.dropStatement d onTable)) := by
  cases h with
  | table h => exact .emit rfl (congrArg ("DROP TABLE " ++ ·) h.name)
  | index h => exact .emit rfl (congrArg ("DROP INDEX " ++ ·) h.name)

end SchemaObject

section Schemas

variable {s s' : Script} (h : List.Forall₂ Statement.Alike s s')
include h

theorem objects_alike (hnames : ∀ x ∈ objects s, x.constraintNames.Nodup) :
    List.Forall₂ SchemaObject.Alike (objects s) (objects s') := by
  refine List.rel_filterMap (fun t t' ht => ?_) (forall₂_paired h)
  obtain ⟨hmem, -, hrel⟩ := ht
  cases hrel with
  | @createTable t t' hrel =>
      exact .some (.table hrel (hnames (.table t) (List.mem_filterMap.mpr ⟨_, hmem, rfl⟩)))
  | createIndex hrel => exact .some (.index hrel)

theorem objectRefusals_alike : objectRefusals s = [] ∧ objectRefusals s' = [] := by
  induction h with
  | nil => exact ⟨rfl, rfl⟩
  | cons hs _ ih => cases hs <;> exact ih

theorem table?_alike (name : String) :
    Option.Rel (CreateTable.AlikeBy Column.Alike) (table? s name) (table? s' name) := by
  refine rel_findSome? h fun t t' ht => ?_
  cases ht with
  | createTable ht =>
      dsimp only
      rw [ht.name]
      split
      · exact .some ht
      · exact .none
  | createIndex => exact .none

end Schemas

namespace SchemaPair

-- Two runs over the same schemas in different spellings.
structure Alike (p q : SchemaPair) : Prop where
  dialect : p.dialect = q.dialect
  options : p.options = q.options
  before : List.Forall₂ Statement.Alike p.before q.before
  after : List.Forall₂ Statement.Alike p.after q.after
  oldNames : ∀ x ∈ objects p.before, x.constraintNames.Nodup
  newNames : ∀ x ∈ objects p.after, x.constraintNames.Nodup

namespace Alike

variable {p q : SchemaPair} (h : p.Alike q)
include h

theorem oldObjects : List.Forall₂ SchemaObject.Alike (objects p.before) (objects q.before) :=
  objects_alike h.before h.oldNames

theorem newObjects : List.Forall₂ SchemaObject.Alike (objects p.after) (objects q.after) :=
  objects_alike h.after h.newNames

theorem oldKey_eq {x x' : SchemaObject} (hx : x.Alike x') : p.oldKey x = q.oldKey x' := by
  rw [oldKey, oldKey, hx.key_eq, h.options]

theorem old? (key : ObjectKey) : Option.Rel SchemaObject.Alike (p.old? key) (q.old? key) :=
  rel_find? (List.rel_reverse h.oldObjects) fun _ _ hx => by rw [h.oldKey_eq hx]

theorem new? (key : ObjectKey) : Option.Rel SchemaObject.Alike (p.new? key) (q.new? key) :=
  rel_find? (List.rel_reverse h.newObjects) fun _ _ hx => by rw [hx.key_eq]

-- Hints name tables, and nothing but objects is created.
theorem refusals_eq : p.refusals = q.refusals := by
  have htable : p.tableHintRefusal? = q.tableHintRefusal? := by
    funext rename
    simp only [tableHintRefusal?, isNone_eq_of_rel (table?_alike h.before rename.old),
      isNone_eq_of_rel (table?_alike h.after rename.new),
      isSome_eq_of_rel (table?_alike h.before rename.new)]
  have hcolumn : p.columnHintRefusal? = q.columnHintRefusal? := by
    funext rename
    simp only [columnHintRefusal?, isNone_eq_of_rel (table?_alike h.after rename.table),
      isNone_eq_of_rel (h.old? (.table rename.table))]
  obtain ⟨hbefore, hbefore'⟩ := objectRefusals_alike h.before
  obtain ⟨hafter, hafter'⟩ := objectRefusals_alike h.after
  simp only [refusals, h.options, htable, hcolumn, hbefore, hbefore', hafter, hafter']

theorem renames : List.Forall₂ Step.Alike p.renames q.renames := by
  rw [SchemaPair.renames, SchemaPair.renames, h.options]
  refine forall₂_flatMap fun rename _ => ?_
  have hold := table?_alike h.before rename.old
  have hnew := table?_alike h.after rename.new
  generalize table? p.before rename.old = o, table? q.before rename.old = o' at hold ⊢
  generalize table? p.after rename.new = n, table? q.after rename.new = n' at hnew ⊢
  cases hold with
  | none => exact .nil
  | some hold =>
      cases hnew with
      | none => exact .nil
      | some hnew => exact .cons (.note _ _) (Step.alter_alike hold.name (.renameTable hnew.name))

theorem indexChanged_eq {old old' new new' : CreateIndex} (hold : old.Alike old')
    (hnew : new.Alike new') : p.indexChanged old new = q.indexChanged old' new' := by
  simp only [indexChanged, h.dialect, h.options, hnew.identity_eq]
  have htable := renameTable_congr (d := q.dialect) q.options.tableRenames hold.table
  rw [htable]
  refine congrArg (· != new'.identity) (CreateIndex.Alike.identity_eq ?_)
  exact { hold with table := htable, columns := renameColumns_congr _ hold.columns }

theorem isDropped_eq {x x' : SchemaObject} (hx : x.Alike x') : p.isDropped x = q.isDropped x' := by
  have hnew := h.new? (p.oldKey x)
  unfold isDropped
  rw [← h.oldKey_eq hx]
  generalize p.new? (p.oldKey x) = o, q.new? (p.oldKey x) = o' at hnew ⊢
  cases hnew with
  | none => rfl
  | some hnew =>
      cases hx with
      | table => cases hnew <;> rfl
      | index hx =>
          cases hnew with
          | table => rfl
          | index hnew => exact h.indexChanged_eq hx hnew

theorem drops : List.Forall₂ Step.Alike p.drops q.drops := by
  have hdropped := rel_filter (List.rel_reverse h.oldObjects) fun _ _ hx => h.isDropped_eq hx
  rw [SchemaPair.drops, SchemaPair.drops, List.forall₂_map_left_iff, List.forall₂_map_right_iff,
    h.dialect, h.options]
  exact hdropped.imp fun _ _ hx => hx.dropStatement _ _

theorem creates : List.Forall₂ Step.Alike p.creates q.creates := by
  have hcreated := rel_filter h.newObjects (f := fun x => (p.old? x.key).isNone)
    (g := fun x => (q.old? x.key).isNone) fun x _ hx => by
      rw [isNone_eq_of_rel (h.old? x.key), hx.key_eq]
  rw [SchemaPair.creates, SchemaPair.creates, List.forall₂_map_left_iff,
    List.forall₂_map_right_iff]
  exact hcreated.imp fun _ _ hx => hx.statement

theorem tablePair {old old' new new' : CreateTable} (hold : old.AlikeBy Column.Alike old')
    (hnew : new.AlikeBy Column.Alike new') (holdNames : (old.constraints.map (·.name.name)).Nodup)
    (hnewNames : (new.constraints.map (·.name.name)).Nodup) :
    (p.tablePair old new).Alike (q.tablePair old' new') where
  dialect := h.dialect
  notValid := congrArg Options.notValid h.options
  renamedFrom := by simp only [SchemaPair.tablePair, h.options, hnew.name]
  columnRenames := by simp only [SchemaPair.tablePair, h.options, hnew.name]
  tableRenames := congrArg Options.tableRenames h.options
  old := hold
  new := hnew
  oldNames := holdNames
  newNames := hnewNames

theorem alterSteps {x x' : SchemaObject} (hx : x.Alike x') :
    List.Forall₂ Step.Alike (p.alterSteps x) (q.alterSteps x') := by
  have hold := h.old? x.key
  unfold SchemaPair.alterSteps
  rw [← hx.key_eq]
  generalize p.old? x.key = o, q.old? x.key = o' at hold ⊢
  cases hold with
  | none => cases hx <;> exact .nil
  | some hold =>
      cases hold with
      | table hold holdNames =>
          cases hx with
          | table hnew hnewNames =>
              exact (h.tablePair hold hnew holdNames hnewNames).steps
          | index => exact .nil
      | index hold =>
          cases hx with
          | table => exact .nil
          | index hnew =>
              dsimp only
              rw [h.indexChanged_eq hold hnew]
              split
              · exact .cons (.note _ _) (.cons (SchemaObject.Alike.index hnew).statement .nil)
              · exact .nil

theorem alters : List.Forall₂ Step.Alike p.alters q.alters :=
  List.rel_flatMap h.newObjects fun _ _ hx => h.alterSteps hx

theorem steps : List.Forall₂ Step.Alike p.steps q.steps := by
  have hrefusals : List.Forall₂ Step.Alike p.refusals q.refusals := by
    rw [h.refusals_eq]
    exact List.forall₂_same.mpr fun step _ => .refl step
  exact List.rel_append (List.rel_append (List.rel_append (List.rel_append hrefusals h.renames)
    h.drops) h.creates) h.alters

end Alike

end SchemaPair

variable {before before' after after' : Script}

-- The run looks at names and at what is compared, and at nothing else that is written: where both
-- schemas are alike, so is the outcome. Hints are about names, and what they rename is alike again.
theorem diff_alike (d : Dialect) (options : Options)
    (hbefore : List.Forall₂ Statement.Alike before before')
    (hafter : List.Forall₂ Statement.Alike after after')
    (holdNames : ∀ x ∈ objects before, x.constraintNames.Nodup)
    (hnewNames : ∀ x ∈ objects after, x.constraintNames.Nodup) :
    SameResult (diff d options (some before) (some after))
      (diff d options (some before') (some after')) := by
  refine sameResult_of_steps ?_
  rw [steps, steps, Script.identity_eq hbefore, Script.identity_eq hafter]
  split
  · exact .nil
  · exact SchemaPair.Alike.steps ⟨rfl, rfl, hbefore, hafter, holdNames, hnewNames⟩

-- A key and an index on a table that gets a new name along with a column, for one way to write
-- names.
def spelledOld (spell : String → Ident) : Script := [
  .createTable ⟨false, .ofIdent (spell "a"), [⟨spell "x", ⟨"INT", [], [], 0⟩, false, none, false⟩],
    [⟨spell "a_k", .unique [.ascending (spell "x")]⟩], []⟩,
  .createIndex ⟨false, false, .ofIdent (spell "i"), .ofIdent (spell "a"), none,
    [.ascending (spell "x")], none⟩]

def spelledNew (spell : String → Ident) : Script := [
  .createTable ⟨false, .ofIdent (spell "b"), [⟨spell "y", ⟨"INT", [], [], 0⟩, true, none, false⟩],
    [⟨spell "b_k", .unique [.ascending (spell "y")]⟩], []⟩]

theorem diff_alike_quoted :
    let options : Options := ⟨false, [⟨"a", "b"⟩], [⟨"b", "x", "y"⟩]⟩
    let quoted := Ident.quoted '"'
    Script.parse .postgres "CREATE TABLE a (x INT, CONSTRAINT a_k UNIQUE (x));
      CREATE INDEX i ON a (x);" = .ok (spelledOld .bare) ∧
    Script.parse .postgres "CREATE TABLE \"a\" (\"x\" INT, CONSTRAINT \"a_k\" UNIQUE (\"x\"));
      CREATE INDEX \"i\" ON \"a\" (\"x\");" = .ok (spelledOld quoted) ∧
    Script.parse .postgres "CREATE TABLE b (y INT NOT NULL, CONSTRAINT b_k UNIQUE (y));" =
      .ok (spelledNew .bare) ∧
    Script.parse .postgres "CREATE TABLE \"b\" (\"y\" INT NOT NULL,
      CONSTRAINT \"b_k\" UNIQUE (\"y\"));" = .ok (spelledNew quoted) ∧
    (diff .postgres options (some (spelledOld .bare)) (some (spelledNew .bare))).map List.length =
      .ok 5 ∧
    SameResult (diff .postgres options (some (spelledOld .bare)) (some (spelledNew .bare)))
      (diff .postgres options (some (spelledOld quoted)) (some (spelledNew quoted))) := by
  have hold : List.Forall₂ Statement.Alike (spelledOld .bare) (spelledOld (.quoted '"')) :=
    .cons (.createTable ⟨rfl, .cons ⟨⟨rfl, rfl, rfl⟩, rfl, rfl⟩ .nil,
      .cons ⟨rfl, rfl, rfl, rfl⟩ .nil, rfl⟩)
    (.cons (.createIndex ⟨⟨rfl, rfl, rfl, rfl⟩, rfl, rfl⟩) .nil)
  have hnew : List.Forall₂ Statement.Alike (spelledNew .bare) (spelledNew (.quoted '"')) :=
    .cons (.createTable ⟨rfl, .cons ⟨⟨rfl, rfl, rfl⟩, rfl, rfl⟩ .nil,
      .cons ⟨rfl, rfl, rfl, rfl⟩ .nil, rfl⟩) .nil
  exact ⟨by decide +kernel, by decide +kernel, by decide +kernel, by decide +kernel,
    by decide +kernel, diff_alike .postgres _ hold hnew (by decide) (by decide)⟩

-- Two schemas that look alike, and a run that tells one from the other: the new schema is the first
-- one both times.
structure ToldApart (d : Dialect) (text text' : String) (s s' : Script) : Prop where
  parse : Script.parse d text = .ok s
  parse' : Script.parse d text' = .ok s'
  before : List.Forall₂ Statement.LooksLike s s'
  after : List.Forall₂ Statement.LooksLike s s
  names : ∀ x ∈ objects s ++ objects s', x.constraintNames.Nodup
  apart : ¬SameResult (diff d .default (some s) (some s)) (diff d .default (some s') (some s))

theorem not_sameResult {d : Dialect} {s s' : Script}
    (h : diff d .default (some s) (some s) = .error .noDifference)
    (h' : diff d .default (some s') (some s) ≠ .error .noDifference) :
    ¬SameResult (diff d .default (some s) (some s)) (diff d .default (some s') (some s)) := by
  intro hsame
  rw [h] at hsame
  generalize diff d .default (some s') (some s) = r at h' hsame
  cases hsame
  exact h' rfl

def flaggedTable (name : String) (notNull autoIncrement : Bool) : Statement :=
  .createTable ⟨false, .ofIdent (.bare name),
    [⟨.bare "a", ⟨"INT", [], [], 0⟩, notNull, none, autoIncrement⟩], [], []⟩

def indexOn (unique : Bool) (table : String) : Statement :=
  .createIndex ⟨unique, false, .ofIdent (.bare "i"), .ofIdent (.bare table), none,
    [.ascending (.bare "a")], none⟩

-- A run looks at more than that: at whether a column may be null, whether it counts by itself,
-- whether an index is unique, and at the table of an index.
theorem toldApart_unlisted :
    ToldApart .mysql "CREATE TABLE t (a INT);" "CREATE TABLE t (a INT NOT NULL);"
      [flaggedTable "t" false false] [flaggedTable "t" true false] ∧
    ToldApart .mysql "CREATE TABLE t (a INT);" "CREATE TABLE t (a INT AUTO_INCREMENT);"
      [flaggedTable "t" false false] [flaggedTable "t" false true] ∧
    ToldApart .mysql "CREATE INDEX i ON t (a);" "CREATE UNIQUE INDEX i ON t (a);"
      [indexOn false "t"] [indexOn true "t"] ∧
    ToldApart .mysql
      "CREATE TABLE t (a INT); CREATE TABLE u (a INT); CREATE INDEX i ON t (a);"
      "CREATE TABLE t (a INT); CREATE TABLE u (a INT); CREATE INDEX i ON u (a);"
      [flaggedTable "t" false false, flaggedTable "u" false false, indexOn false "t"]
      [flaggedTable "t" false false, flaggedTable "u" false false, indexOn false "u"] := by
  have htable : ∀ name n n' i i',
      (flaggedTable name n i).LooksLike (flaggedTable name n' i') := fun _ _ _ _ _ =>
    .createTable ⟨rfl, .cons ⟨rfl, rfl, rfl⟩ .nil, .nil, rfl⟩
  have hindex : ∀ u u' t t', (indexOn u t).LooksLike (indexOn u' t') := fun _ _ _ _ =>
    .createIndex ⟨rfl, rfl, rfl, rfl⟩
  have hone : ∀ {s s' : Statement}, s.LooksLike s' → List.Forall₂ Statement.LooksLike [s] [s'] :=
    fun h => .cons h .nil
  have htables : ∀ table, List.Forall₂ Statement.LooksLike
      [flaggedTable "t" false false, flaggedTable "u" false false, indexOn false "t"]
      [flaggedTable "t" false false, flaggedTable "u" false false, indexOn false table] :=
    fun table => .cons (htable ..) (.cons (htable ..) (hone (hindex ..)))
  refine ⟨⟨by decide +kernel, by decide +kernel, hone (htable ..), hone (htable ..), by decide, ?_⟩,
    ⟨by decide +kernel, by decide +kernel, hone (htable ..), hone (htable ..), by decide, ?_⟩,
    ⟨by decide +kernel, by decide +kernel, hone (hindex ..), hone (hindex ..), by decide, ?_⟩,
    ⟨by decide +kernel, by decide +kernel, htables _, htables _, by decide, ?_⟩⟩
  all_goals exact not_sameResult (by decide +kernel) (by decide +kernel)

end SchemaDiff.Migration
