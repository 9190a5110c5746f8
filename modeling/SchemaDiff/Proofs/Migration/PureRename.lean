import SchemaDiff.Proofs.Migration.TablePureRename

namespace SchemaDiff.Migration

open SchemaObject Step

-- One statement for every hint and nothing else: first the tables, and then the columns table by
-- table.
def Options.IsDoneBy (o : Options) (m : Script) : Prop :=
  ∃ tables columns hints, m = tables ++ columns ∧
    List.Forall₂ TableRename.IsDoneBy o.tableRenames tables ∧
      hints.Perm o.columnRenames ∧ List.Forall₂ ColumnRename.IsDoneBy hints columns

theorem Options.IsDoneBy.isRename {o : Options} {m : Script} (h : o.IsDoneBy m) :
    ∀ s ∈ m, s.IsRename := by
  obtain ⟨tables, columns, hints, rfl, htables, -, hcolumns⟩ := h
  intro s hs
  rcases List.mem_append.mp hs with hs | hs
  · obtain ⟨r, -, hdone⟩ := exists_of_forall₂ htables hs
    unfold TableRename.IsDoneBy at hdone
    split at hdone
    · trivial
    · exact absurd hdone id
  · obtain ⟨r, -, hdone⟩ := exists_of_forall₂ hcolumns hs
    unfold ColumnRename.IsDoneBy at hdone
    split at hdone
    · trivial
    · exact absurd hdone id

theorem Options.IsDoneBy.ne_nil {o : Options} {m : Script} (h : o.IsDoneBy m)
    (hhints : o.tableRenames ≠ [] ∨ o.columnRenames ≠ []) : m ≠ [] := by
  rintro rfl
  obtain ⟨tables, columns, hints, hnil, htables, hperm, hcolumns⟩ := h
  obtain ⟨rfl, rfl⟩ := List.append_eq_nil_iff.mp hnil.symm
  rw [List.forall₂_nil_right_iff] at htables hcolumns
  subst hcolumns
  exact hhints.elim (· htables) (· hperm.symm.eq_nil)

def ObjectKey.table? : ObjectKey → Option String
  | table name => some name
  | index _ => none

theorem tableNames_eq (s : Script) :
    tableNames s = ((objects s).map key).filterMap ObjectKey.table? := by
  rw [tableNames, List.filterMap_map]
  refine List.filterMap_congr fun x _ => ?_
  cases x <;> rfl

theorem Unambiguous.tables {s : Script} (h : Unambiguous s) : (tableNames s).Nodup := by
  rw [tableNames_eq]
  refine h.keys.filterMap fun k k' name hk hk' => ?_
  cases k <;> cases k' <;> simp_all [ObjectKey.table?]

theorem table?_isSome {s : Script} {name : String} :
    (table? s name).isSome ↔ name ∈ tableNames s := by
  constructor
  · intro h
    obtain ⟨t, ht⟩ := Option.isSome_iff_exists.mp h
    exact mem_tableNames.mpr ⟨t, table?_eq_some ht⟩
  · intro hmem
    by_contra hnone
    exact table?_eq_none (by simpa using hnone) hmem

-- Every foreign key to another table names columns that read the same under their new names.
def SchemaObject.KeepsTargets (r : Renaming) : SchemaObject → Prop
  | table t => ∀ c ∈ t.constraints, c.rule.KeepsTarget r t.name.identity
  | index _ => True

instance (r : Renaming) : DecidablePred (SchemaObject.KeepsTargets r)
  | table t =>
      inferInstanceAs (Decidable (∀ c ∈ t.constraints, c.rule.KeepsTarget r t.name.identity))
  | index _ => isTrue trivial

namespace SchemaPair

variable {p : SchemaPair} {x y : SchemaObject}

-- The new schema is the old one under its new names, and the hints give the new names.
structure PureRename (p : SchemaPair) : Prop where
  names : Unambiguous p.before
  fresh : p.options.Fresh p.before
  renamed : RenamedTo p.options.renaming p.before p.after

namespace PureRename

variable (h : p.PureRename)

include h

theorem objects_forall₂ : List.Forall₂ (SchemaObject.RenamedTo p.options.renaming)
    (objects p.before) (objects p.after) := by
  obtain ⟨old, new, hbefore, hafter, hrenamed⟩ := h.renamed
  rwa [hbefore, hafter, objects_map_statement, objects_map_statement]

theorem objectRefusals_eq_nil : objectRefusals p.before = [] ∧ objectRefusals p.after = [] := by
  obtain ⟨old, new, hbefore, hafter, -⟩ := h.renamed
  rw [hbefore, hafter]
  exact ⟨Migration.objectRefusals_eq_nil fun _ hs => creates_of_mem_statements hs,
    Migration.objectRefusals_eq_nil fun _ hs => creates_of_mem_statements hs⟩

omit h in
theorem key_eq (hsame : x.RenamedTo p.options.renaming y) : y.key = p.oldKey x := by
  cases hsame with
  | @table t u hsame =>
      have hname : u.name.identity = p.options.renaming.table t.name.identity :=
        congrArg (fun t : CreateTable => t.name.identity) hsame
      exact (congrArg ObjectKey.table hname).trans (oldKey_table t).symm
  | index hsame =>
      have hname := congrArg (fun i : CreateIndex => ObjectKey.index i.name.identity) hsame
      exact hname

theorem map_keys : (objects p.after).map key = (objects p.before).map p.oldKey := by
  rw [map_eq_map_iff]
  exact h.objects_forall₂.flip.imp fun _ _ => key_eq

theorem table_inj {a b : String} (ha : a ∈ tableNames p.before) (hb : b ∈ tableNames p.before)
    (heq : p.options.renaming.table a = p.options.renaming.table b) : a = b := by
  have hfree : ∀ q ∈ p.options.tableRenames.map (fun r => (r.old, r.new)),
      q.2 ∉ tableNames p.before := by
    simpa using fun r hr => (h.fresh.tables r hr).2
  exact newName_inj hfree (by simpa [Function.comp_def] using h.fresh.newTables) ha hb heq

theorem oldKeys_nodup : ((objects p.before).map p.oldKey).Nodup := by
  refine (List.Nodup.of_map _ h.names.keys).map_on fun x hx y hy heq => ?_
  refine List.inj_on_of_nodup_map h.names.keys hx hy ?_
  cases x with
  | index i =>
      cases y with
      | index j => exact heq
      | table t => cases heq
  | table t =>
      cases y with
      | index j => cases heq
      | table u =>
          rw [oldKey_table, oldKey_table] at heq
          exact congrArg ObjectKey.table (h.table_inj (mem_tableNames.mpr ⟨t, hx, rfl⟩)
            (mem_tableNames.mpr ⟨u, hy, rfl⟩) (ObjectKey.table.inj heq))

theorem old?_eq (hx : x ∈ objects p.before) : p.old? (p.oldKey x) = some x := by
  have hnames : ((objects p.before).reverse.map p.oldKey).Nodup := by
    rw [List.map_reverse, List.nodup_reverse]
    exact h.oldKeys_nodup
  exact (TablePair.find?_name_eq_some hnames).mpr ⟨List.mem_reverse.mpr hx, rfl⟩

theorem new?_eq (hy : y ∈ objects p.after) : p.new? y.key = some y := by
  have hnames : ((objects p.after).reverse.map key).Nodup := by
    rw [List.map_reverse, List.nodup_reverse, h.map_keys]
    exact h.oldKeys_nodup
  exact (TablePair.find?_name_eq_some hnames).mpr ⟨List.mem_reverse.mpr hy, rfl⟩

theorem tableNames_after :
    tableNames p.after = (tableNames p.before).map p.options.renaming.table := by
  rw [tableNames_eq, h.map_keys, List.filterMap_map, tableNames, List.map_filterMap]
  refine List.filterMap_congr fun x _ => ?_
  cases x with
  | table t => exact congrArg ObjectKey.table? (oldKey_table t)
  | index i => rfl

theorem tableNames_after_nodup : (tableNames p.after).Nodup := by
  rw [h.tableNames_after]
  exact h.names.tables.map_on fun a ha b hb => h.table_inj ha hb

-- An index is the same on the renamed table and over the renamed columns.
omit h in
theorem indexChanged_eq_false {i j : CreateIndex}
    (hsame : j.unquoted = (i.renamed p.options.renaming).unquoted) :
    p.indexChanged i j = false := by
  have htable := unquoted_renameTable p.dialect p.options i.table
  have hname : (renameTable p.dialect p.options.tableRenames i.table).identity =
      p.options.renaming.table i.table.identity := congrArg ObjectName.identity htable
  have hcarried : ({ i with
      table := renameTable p.dialect p.options.tableRenames i.table
      columns := renameColumns p.dialect
        (p.options.columnRenamesOf (p.options.renaming.table i.table.identity)) i.columns } :
          CreateIndex).unquoted = j.unquoted := by
    rw [hsame]
    simp only [CreateIndex.unquoted, CreateIndex.renamed, htable, unquoted_renameColumns]
  unfold indexChanged
  dsimp only
  rw [hname, bne_eq_false_iff_eq, ← CreateIndex.identity_unquoted, hcarried,
    CreateIndex.identity_unquoted]

theorem drops_eq_nil : p.drops = [] := by
  rw [drops, List.map_eq_nil_iff, List.filter_eq_nil_iff]
  intro x hx
  obtain ⟨y, hy, hsame⟩ := exists_of_forall₂ h.objects_forall₂.flip (List.mem_reverse.mp hx)
  have hnew := h.new?_eq hy
  rw [key_eq hsame] at hnew
  cases hsame with
  | table hsame => simp [isDropped, hnew]
  | index hsame => simp [isDropped, hnew, indexChanged_eq_false hsame]

theorem creates_eq_nil : p.creates = [] := by
  rw [creates, List.map_eq_nil_iff, List.filter_eq_nil_iff]
  intro y hy
  obtain ⟨x, hx, hsame⟩ := exists_of_forall₂ h.objects_forall₂ hy
  simp [key_eq hsame, h.old?_eq hx]

-- Every table is compared with itself under its new names.
theorem pureRename_tablePair {t u : CreateTable} (ht : .table t ∈ objects p.before)
    (hsame : u.unquoted = (t.renamed p.options.renaming).unquoted) :
    (p.tablePair t u).PureRename p.options := by
  have hname : u.name.identity = p.options.renaming.table t.name.identity :=
    congrArg (fun t : CreateTable => t.name.identity) hsame
  have htables : ∀ r ∈ p.options.columnRenamesOf u.name.identity, r.table = u.name.identity :=
    fun r hr => by simpa using (List.mem_filter.mp hr).2
  have hnodup : ∀ f : ColumnRename → String,
      (p.options.columnRenames.map fun r => (r.table, f r)).Nodup →
        ((p.options.columnRenamesOf u.name.identity).map f).Nodup := by
    intro f hf
    refine .of_map (fun name => (u.name.identity, name)) ?_
    rw [List.map_map]
    refine (List.map_congr_left fun r hr => ?_) ▸ (List.filter_sublist.map _).nodup hf
    simp [← htables r hr]
  exact {
    tableRenames := rfl
    columnRenames := congrArg p.options.columnRenamesOf hname
    renamed := hsame
    columnNames := h.names.columns _ ht
    constraintNames := h.names.constraints _ ht
    oldHints := hnodup _ h.fresh.oldColumns
    newHints := hnodup _ h.fresh.newColumns
    hints := by
      intro r hr
      obtain ⟨t', ht', htable, hold, hnew⟩ := h.fresh.columns r (List.mem_filter.mp hr).1
      have heq : t'.name.identity = t.name.identity :=
        h.table_inj (mem_tableNames.mpr ⟨t', ht', rfl⟩) (mem_tableNames.mpr ⟨t, ht, rfl⟩)
          (htable.trans ((htables r hr).trans hname))
      cases List.inj_on_of_nodup_map h.names.keys ht' ht (congrArg ObjectKey.table heq)
      exact ⟨hold, hnew⟩ }

theorem alterSteps_table {t u : CreateTable} (ht : .table t ∈ objects p.before)
    (hsame : u.unquoted = (t.renamed p.options.renaming).unquoted) :
    p.alterSteps (.table u) = (p.tablePair t u).steps := by
  unfold alterSteps
  rw [key_eq (.table hsame), h.old?_eq ht]

theorem alterSteps_index {i j : CreateIndex} (hi : .index i ∈ objects p.before)
    (hsame : j.unquoted = (i.renamed p.options.renaming).unquoted) :
    p.alterSteps (.index j) = [] := by
  unfold alterSteps
  rw [key_eq (.index hsame), h.old?_eq hi]
  simp [indexChanged_eq_false hsame]

theorem tableHintRefusal?_eq_none {r : TableRename} (hr : r ∈ p.options.tableRenames) :
    p.tableHintRefusal? r = none := by
  obtain ⟨hold, hnew⟩ := h.fresh.tables r hr
  have hbecame : r.new ∈ tableNames p.after := by
    have hname : p.options.renaming.table r.old = r.new := by
      have hfst : ((p.options.tableRenames.map fun r => (r.old, r.new)).map Prod.fst).Nodup := by
        simpa [Function.comp_def] using h.fresh.oldTables
      exact newName_of_mem hfst (List.mem_map_of_mem (f := fun r => (r.old, r.new)) hr)
    rw [h.tableNames_after, ← hname]
    exact List.mem_map_of_mem hold
  rw [← table?_isSome] at hold hnew hbecame
  simp [tableHintRefusal?, ← Option.not_isSome_iff_eq_none, hold, hnew, hbecame]

theorem columnHint {r : ColumnRename} (hr : r ∈ p.options.columnRenames) :
    r.table ∈ tableNames p.after ∧ (p.old? (.table r.table)).isSome := by
  obtain ⟨t, ht, hname, -⟩ := h.fresh.columns r hr
  refine ⟨?_, ?_⟩
  · rw [h.tableNames_after, ← hname]
    exact List.mem_map_of_mem (mem_tableNames.mpr ⟨t, ht, rfl⟩)
  · rw [← hname]
    exact (congrArg Option.isSome (oldKey_table t ▸ h.old?_eq ht)).trans rfl

theorem refusals_eq_nil : p.refusals = [] := by
  have htables : p.options.tableRenames.filterMap p.tableHintRefusal? = [] :=
    List.filterMap_eq_nil_iff.mpr fun r hr => h.tableHintRefusal?_eq_none hr
  have hcolumns : p.options.columnRenames.filterMap p.columnHintRefusal? = [] := by
    refine List.filterMap_eq_nil_iff.mpr fun r hr => ?_
    obtain ⟨hnew, hold⟩ := h.columnHint hr
    rw [← table?_isSome] at hnew
    simp [columnHintRefusal?, ← Option.not_isSome_iff_eq_none, hold, hnew]
  simp [refusals, htables, hcolumns, h.objectRefusals_eq_nil]

omit h in
theorem refusal?_renames : refusal? p.renames = none := by
  refine refusal?_eq_none_iff.mpr fun step hs r => ?_
  obtain ⟨rename, -, hs⟩ := List.mem_flatMap.mp hs
  rintro rfl
  split at hs <;> simp [Step.alter, Step.announce] at hs

theorem steps_eq : p.steps = p.renames ++ p.alters := by
  simp [steps, h.refusals_eq_nil, h.drops_eq_nil, h.creates_eq_nil]

-- The hints for the columns, table by table.
theorem columnHints_perm :
    ((tableNames p.after).flatMap p.options.columnRenamesOf).Perm p.options.columnRenames :=
  flatMap_filter_perm h.tableNames_after_nodup fun _ hr => (h.columnHint hr).1

theorem alters_of_keeps (hkeeps : ∀ x ∈ objects p.before, x.KeepsTargets p.options.renaming) :
    refusal? p.alters = none ∧ List.Forall₂ ColumnRename.IsDoneBy
      ((tableNames p.after).flatMap p.options.columnRenamesOf) (statements p.alters) := by
  have hobject : ∀ y ∈ objects p.after, refusal? (p.alterSteps y) = none ∧
      List.Forall₂ ColumnRename.IsDoneBy
        ((tableName? y).toList.flatMap p.options.columnRenamesOf)
        (statements (p.alterSteps y)) := by
    intro y hy
    obtain ⟨x, hx, hsame⟩ := exists_of_forall₂ h.objects_forall₂ hy
    cases hsame with
    | index hsame =>
        rw [h.alterSteps_index hx hsame]
        exact ⟨rfl, .nil⟩
    | @table t u hsame =>
        have hpair := h.pureRename_tablePair hx hsame
        obtain ⟨hrefusal, hstatements⟩ := hpair.statements_steps (hkeeps _ hx)
        rw [h.alterSteps_table hx hsame, hstatements]
        refine ⟨hrefusal, ?_⟩
        show List.Forall₂ _ ([u.name.identity].flatMap p.options.columnRenamesOf) _
        rw [List.flatMap_singleton]
        exact hpair.isDoneBy_renameColumns
  refine ⟨refusal?_eq_none_iff.mpr fun step hs => ?_, ?_⟩
  · obtain ⟨y, hy, hs⟩ := List.mem_flatMap.mp hs
    exact refusal?_eq_none_iff.mp (hobject y hy).1 step hs
  · rw [alters, statements_flatMap, tableNames, List.filterMap_eq_flatMap_toList,
      List.flatMap_assoc]
    exact forall₂_flatMap fun y hy => (hobject y hy).2

theorem keeps_of_isRename (hrefusal : refusal? p.steps = none)
    (hrename : ∀ s ∈ statements p.steps, s.IsRename) :
    ∀ x ∈ objects p.before, x.KeepsTargets p.options.renaming := by
  intro x hx
  obtain ⟨y, hy, hsame⟩ := exists_of_forall₂ h.objects_forall₂.flip hx
  cases hsame with
  | index hsame => trivial
  | @table t u hsame =>
      have hsub : ∀ step ∈ (p.tablePair t u).dropConstraintSteps ++
          (p.tablePair t u).addConstraintSteps, step ∈ p.steps := by
        intro step hs
        rw [h.steps_eq, List.mem_append, alters, List.mem_flatMap]
        refine .inr ⟨_, hy, ?_⟩
        rw [h.alterSteps_table hx hsame]
        simp only [TablePair.steps, List.mem_append] at hs ⊢
        tauto
      refine (h.pureRename_tablePair hx hsame).quiet_constraintSteps_iff.mp
        (quiet_append.mp (quiet_iff.mpr ⟨refusal?_eq_none_of_mem hrefusal hsub, ?_⟩))
      refine List.eq_nil_iff_forall_not_mem.mpr fun s hs => ?_
      exact (p.tablePair t u).not_isRename_constraintSteps s hs
        (hrename s (mem_statements.mpr (hsub _ (mem_statements.mp hs))))

end PureRename

end SchemaPair

-- Where the hints rename all that differs, the tables and columns are renamed and nothing else is
-- done, if and only if no foreign key to another table names a column that is renamed. The texts of
-- the schemas have to differ as well.
theorem diff_pure_rename_iff {d : Dialect} {options : Options} {before after : Script}
    (hnames : Unambiguous before) (hfresh : options.Fresh before)
    (hhints : options.tableRenames ≠ [] ∨ options.columnRenames ≠ [])
    (hrenamed : RenamedTo options.renaming before after) :
    (∃ m, diff d options (some before) (some after) = .ok m ∧ options.IsDoneBy m) ↔
      before.identity ≠ after.identity ∧
        ∀ x ∈ objects before, x.KeepsTargets options.renaming := by
  have h : SchemaPair.PureRename ⟨d, options, before, after⟩ := ⟨hnames, hfresh, hrenamed⟩
  constructor
  · rintro ⟨m, hm, hdone⟩
    obtain ⟨hrefusal, rfl, hidentity⟩ := diff_some_eq_ok hm
    exact ⟨hidentity, h.keeps_of_isRename hrefusal hdone.isRename⟩
  · rintro ⟨hidentity, hkeeps⟩
    obtain ⟨halters, hcolumns⟩ := h.alters_of_keeps hkeeps
    have hrefusal : refusal? (SchemaPair.steps ⟨d, options, before, after⟩) = none := by
      rw [h.steps_eq, refusal?_append, SchemaPair.PureRename.refusal?_renames, halters]
      rfl
    have hdone : options.IsDoneBy (statements (SchemaPair.steps ⟨d, options, before, after⟩)) := by
      refine ⟨_, _, _, by rw [h.steps_eq, statements_append],
        SchemaPair.isDoneBy_renames fun r hr => h.tableHintRefusal?_eq_none hr,
        h.columnHints_perm, hcolumns⟩
    have hsteps : steps d options (some before) (some after) =
        SchemaPair.steps ⟨d, options, before, after⟩ := if_neg hidentity
    refine ⟨_, ?_, hdone⟩
    unfold diff Step.result
    rw [hsteps, hrefusal]
    generalize hm : statements (SchemaPair.steps ⟨d, options, before, after⟩) = m at hdone ⊢
    cases m with
    | nil => exact absurd rfl (hdone.ne_nil hhints)
    | cons first rest => rfl

-- A table with a foreign key to itself and an index, and a foreign key of another table to it.
def referencedTable (table column : Ident) : Script := [
  .createTable ⟨false, .ofIdent table, [intColumn column, intColumn (.bare "b")],
    [⟨.bare "k", .unique [.ascending column]⟩,
      ⟨.bare "s", .foreignKey [.ascending (.bare "b")]
        ⟨.ofIdent table, [.ascending column], none, none⟩⟩], []⟩,
  .createTable ⟨false, .ofIdent (.bare "v"), [intColumn (.bare "c")],
    [⟨.bare "g", .foreignKey [.ascending (.bare "c")]
      ⟨.ofIdent table, [.ascending (.bare "b")], none, none⟩⟩], []⟩,
  .createIndex ⟨false, false, .ofIdent (.bare "i"), .ofIdent table, none, [.ascending column],
    none⟩]

-- The table and the column that it refers to are renamed. The other table refers to a column that is
-- not.
theorem diff_pure_rename_referencedTable :
    let options : Options := ⟨false, [⟨"t", "u"⟩], [⟨"u", "a", "n"⟩]⟩
    let before := referencedTable (.bare "t") (.bare "a")
    let after := referencedTable (.bare "u") (.quoted '"' "n")
    Unambiguous before ∧ options.Fresh before ∧ RenamedTo options.renaming before after ∧
      ∃ m, diff .postgres options (some before) (some after) = .ok m ∧ options.IsDoneBy m := by
  have hnames : Unambiguous (referencedTable (.bare "t") (.bare "a")) := by decide
  have hfresh : Options.Fresh ⟨false, [⟨"t", "u"⟩], [⟨"u", "a", "n"⟩]⟩
      (referencedTable (.bare "t") (.bare "a")) :=
    { oldTables := by decide
      newTables := by decide
      tables := by decide
      oldColumns := by decide
      newColumns := by decide
      columns := by
        simp only [List.forall_mem_singleton]
        exact ⟨_, .head _, by decide, by decide, by decide⟩ }
  have hrenamed : RenamedTo (Options.renaming ⟨false, [⟨"t", "u"⟩], [⟨"u", "a", "n"⟩]⟩)
      (referencedTable (.bare "t") (.bare "a")) (referencedTable (.bare "u") (.quoted '"' "n")) :=
    ⟨objects (referencedTable (.bare "t") (.bare "a")),
      objects (referencedTable (.bare "u") (.quoted '"' "n")), rfl, rfl,
      .cons (.table (by decide)) (.cons (.table (by decide)) (.cons (.index (by decide)) .nil))⟩
  exact ⟨hnames, hfresh, hrenamed, (diff_pure_rename_iff hnames hfresh (by decide) hrenamed).mpr
    ⟨by decide +kernel, by decide +kernel⟩⟩

def referencedColumn (column : String) : Script := [
  .createTable ⟨false, .ofIdent (.bare "a"), [intColumn (.bare column)], [], []⟩,
  .createTable ⟨false, .ofIdent (.bare "b"), [intColumn (.bare "y")],
    [⟨.bare "f", .foreignKey [.ascending (.bare "y")]
      ⟨.ofIdent (.bare "a"), [.ascending (.bare column)], none, none⟩⟩], []⟩]

-- A foreign key of another table names the column that is renamed. It is dropped and added again.
theorem not_isDoneBy_referencedColumn :
    let options : Options := ⟨false, [], [⟨"a", "x", "z"⟩]⟩
    Script.parse .postgres "CREATE TABLE a (x INT);
      CREATE TABLE b (y INT, CONSTRAINT f FOREIGN KEY (y) REFERENCES a (x));" =
        .ok (referencedColumn "x") ∧
      Script.parse .postgres "CREATE TABLE a (z INT);
      CREATE TABLE b (y INT, CONSTRAINT f FOREIGN KEY (y) REFERENCES a (z));" =
        .ok (referencedColumn "z") ∧
      Unambiguous (referencedColumn "x") ∧ options.Fresh (referencedColumn "x") ∧
      RenamedTo options.renaming (referencedColumn "x") (referencedColumn "z") ∧
      ¬∃ m, diff .postgres options (some (referencedColumn "x")) (some (referencedColumn "z")) =
        .ok m ∧ options.IsDoneBy m := by
  have hdiff : diff .postgres ⟨false, [], [⟨"a", "x", "z"⟩]⟩ (some (referencedColumn "x"))
      (some (referencedColumn "z")) = .ok [
        .alterTable (.ofIdent (.bare "a")) (.renameColumn (.bare "x") (.bare "z")),
        .alterTable (.ofIdent (.bare "b")) (.dropConstraint (.bare "f")),
        .alterTable (.ofIdent (.bare "b")) (.addConstraint ⟨.bare "f",
          .foreignKey [.ascending (.bare "y")]
            ⟨.ofIdent (.bare "a"), [.ascending (.bare "z")], none, none⟩⟩ false)] := by
    decide +kernel
  refine ⟨by decide +kernel, by decide +kernel, by decide, ?_,
    ⟨objects (referencedColumn "x"), objects (referencedColumn "z"), rfl, rfl,
      .cons (.table (by decide)) (.cons (.table (by decide)) .nil)⟩, ?_⟩
  · exact {
      oldTables := by decide
      newTables := by decide
      tables := by decide
      oldColumns := by decide
      newColumns := by decide
      columns := by
        simp only [List.forall_mem_singleton]
        exact ⟨_, .head _, by decide, by decide, by decide⟩ }
  · rintro ⟨m, hm, hdone⟩
    obtain rfl := Except.ok.inj (hdiff.symm.trans hm)
    exact hdone.isRename _ (.tail _ (.head _))

end SchemaDiff.Migration
