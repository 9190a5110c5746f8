import SchemaDiff.Proofs.Migration.Hints
import SchemaDiff.Proofs.Migration.Rereading

namespace SchemaDiff

-- The table that a statement creates, drops or changes, or one of whose indexes comes or goes.
def Statement.target? : Statement → Option String
  | createTable t => some t.name.identity
  | dropTable _ name => some name.identity
  | alterTable name _ => some name.identity
  | createIndex i => some i.table.identity
  | dropIndex _ _ table => table.map ObjectName.identity

def Statement.IsTableRename : Statement → Prop
  | alterTable _ (.renameTable _) => True
  | _ => False

namespace Migration

open SchemaObject Step

-- A statement for which the table has its new name already, and stays.
structure TableRename.IsDoneBefore (r : TableRename) (s : Statement) : Prop where
  target : s.target? ≠ some r.old
  notDropped : ∀ ifExists name, s = .dropTable ifExists name →
    name.identity ≠ r.old ∧ name.identity ≠ r.new
  notCreated : ∀ t, s = .createTable t → t.name.identity ≠ r.old ∧ t.name.identity ≠ r.new

-- A statement that neither drops nor creates a table is judged by the table that it is about.
theorem TableRename.IsDoneBefore.of_target {r : TableRename} {s : Statement}
    (hdrop : ∀ ifExists name, s ≠ .dropTable ifExists name) (hcreate : ∀ t, s ≠ .createTable t)
    (htarget : s.target? ≠ some r.old) : r.IsDoneBefore s where
  target := htarget
  notDropped _ _ heq := absurd heq (hdrop _ _)
  notCreated _ heq := absurd heq (hcreate _)

namespace TablePair

variable {q : TablePair} {s : Statement}

-- All that is planned for a table is about the table under its new name.
theorem Plans.target_eq (h : q.Plans s) {name : String} (hname : s.target? = some name) :
    name = q.table := by
  cases h with
  | dropIndex hc hindex =>
      by_cases hd : q.dialect.dropsIndexOnTable = true
      · simpa [Statement.target?, hd, eq_comm] using hname
      · simp [Statement.target?, hd] at hname
  | _ => exact (Option.some.inj hname).symm

theorem Plans.not_isTableRename (h : q.Plans s) : ¬s.IsTableRename := by
  cases h <;> exact id

theorem Plans.ne_dropTable (h : q.Plans s) (ifExists : Bool) (name : ObjectName) :
    s ≠ .dropTable ifExists name := by
  rintro rfl
  cases h

theorem Plans.ne_createTable (h : q.Plans s) (t : CreateTable) : s ≠ .createTable t := by
  rintro rfl
  cases h

end TablePair

namespace SchemaPair

variable {p : SchemaPair}

-- What stands behind the renames.
def IsBehindRenames (p : SchemaPair) (s : Statement) : Prop :=
  ¬s.IsTableRename ∧ ∀ r ∈ p.options.tableRenames, r.IsDoneBefore s

-- An index that is changed is created as it stands.
theorem eq_statement_of_none {new : SchemaObject} (h : p.tablePair? new = none) {s : Statement}
    (hs : s ∈ Step.statements (p.alterSteps new)) : s = new.statement := by
  cases new with
  | table t =>
      rw [statements_alterSteps_of_none h] at hs
      cases hs
  | index i =>
      rw [statements_alterSteps_index] at hs
      split at hs
      · split at hs
        · exact List.mem_singleton.mp hs
        · cases hs
      · cases hs

section

variable (hrefusal : Step.refusal? p.steps = none)
include hrefusal

theorem of_hint {r : TableRename} (hr : r ∈ p.options.tableRenames) :
    r.old ∈ tableNames p.before ∧ r.new ∈ tableNames p.after ∧ r.new ∉ tableNames p.before := by
  obtain ⟨old, new, hold, hnew, hfree⟩ :=
    tableHintRefusal?_eq_none (tableHintRefusal?_of_steps hrefusal r hr)
  exact ⟨mem_tableNames.mpr ⟨old, table?_eq_some hold⟩,
    mem_tableNames.mpr ⟨new, table?_eq_some hnew⟩, hfree⟩

-- No table has an old name behind the renames, however it is spelled.
theorem identity_renameTable_ne {r : TableRename} (hr : r ∈ p.options.tableRenames)
    (table : ObjectName) :
    (renameTable p.dialect p.options.tableRenames table).identity ≠ r.old := by
  rw [identity_renameTable]
  intro heq
  cases hnew : newTableName? p.options.tableRenames table.identity with
  | none =>
      rw [hnew, Option.getD_none] at heq
      exact newTableName?_eq_none.mp hnew r hr heq.symm
  | some new =>
      obtain ⟨r', hr', -, rfl⟩ := exists_of_newTableName? hnew
      rw [hnew, Option.getD_some] at heq
      exact hints_apart hrefusal r hr r' hr' heq.symm

-- A hinted table is not dropped, since its new name is one of the new schema.
theorem ne_old_of_isDropped {t : CreateTable} (h : p.isDropped (.table t) = true) {r : TableRename}
    (hr : r ∈ p.options.tableRenames) : t.name.identity ≠ r.old := by
  intro heq
  obtain ⟨r', hr', hnew⟩ := exists_newTableName? hr
  refine not_mem_of_isDropped h ?_
  rw [newName_eq, heq, hnew]
  exact (of_hint hrefusal hr').2.1

theorem isBehindRenames_drops : Emits p.IsBehindRenames p.drops := by
  refine .map_emit fun x hx => ?_
  obtain ⟨hx, hdropped⟩ := List.mem_filter.mp hx
  cases x with
  | table t =>
      refine ⟨id, fun r hr => ?_⟩
      have hne := ne_old_of_isDropped hrefusal hdropped hr
      refine ⟨fun htarget => hne (Option.some.inj htarget), ?_, fun u hu => by cases hu⟩
      intro ifExists name heq
      cases heq
      refine ⟨hne, fun hname => (of_hint hrefusal hr).2.2 ?_⟩
      exact mem_tableNames.mpr ⟨t, List.mem_reverse.mp hx, hname⟩
  | index i =>
      refine ⟨id, fun r hr => .of_target (by simp [dropStatement]) (by simp [dropStatement]) ?_⟩
      intro htarget
      by_cases hd : p.dialect.dropsIndexOnTable = true
      · simp only [dropStatement, hd, if_true, Statement.target?, Option.map_some,
          Option.some.injEq] at htarget
        exact identity_renameTable_ne hrefusal hr i.table htarget
      · simp [dropStatement, hd, Statement.target?] at htarget

variable (hgone : ∀ r ∈ p.options.tableRenames, r.old ∉ tableNames p.after)
  (hplaced : ∀ o ∈ objects p.after, ∀ table ∈ o.indexedTable?, table ∈ tableNames p.after)
include hgone hplaced

omit hrefusal in
theorem target_statement_ne {new : SchemaObject} (hnew : new ∈ objects p.after)
    {r : TableRename} (hr : r ∈ p.options.tableRenames) : new.statement.target? ≠ some r.old := by
  intro htarget
  refine hgone r hr ?_
  cases new with
  | table t => exact mem_tableNames.mpr ⟨t, hnew, Option.some.inj htarget⟩
  | index i => exact Option.some.inj htarget ▸ hplaced _ hnew _ rfl

theorem isBehindRenames_creates (hold : (p.options.tableRenames.map (·.old)).Nodup) :
    Emits p.IsBehindRenames p.creates := by
  refine .map_emit fun x hx => ?_
  obtain ⟨hx, hfresh⟩ := List.mem_filter.mp hx
  cases x with
  | index i =>
      exact ⟨id, fun r hr => .of_target (by simp [statement]) (by simp [statement])
        (target_statement_ne hgone hplaced hx hr)⟩
  | table t =>
      refine ⟨id, fun r hr => ?_⟩
      have htarget := target_statement_ne hgone hplaced hx hr
      refine ⟨htarget, fun _ _ heq => (by cases heq), fun u hu => ?_⟩
      cases hu
      refine ⟨fun hname => htarget (congrArg some hname), fun hname => ?_⟩
      -- The table is one of the old schema, so it is not new.
      have hthere := isSome_old?_of_hint hold hr (of_hint hrefusal hr).1
      have hnone : p.old? (.table t.name.identity) = none := Option.isNone_iff_eq_none.mp hfresh
      rw [← hname, hnone] at hthere
      cases hthere

omit hrefusal in
theorem isBehindRenames_alters : Emits p.IsBehindRenames p.alters := by
  refine .flatMap fun x hx s hs => ?_
  cases hq : p.tablePair? x with
  | none =>
      obtain ⟨i, rfl⟩ := createsIndex_of_none hq s hs
      refine ⟨id, fun r hr => .of_target (by simp) (by simp) ?_⟩
      rw [eq_statement_of_none hq hs]
      exact target_statement_ne hgone hplaced hx hr
  | some q =>
      obtain ⟨old, t, -, rfl, rfl⟩ := tablePair?_eq_some hq
      rw [alterSteps_of_some hq] at hs
      have hplans := TablePair.plans_steps s hs
      refine ⟨hplans.not_isTableRename, fun r hr => .of_target hplans.ne_dropTable
        hplans.ne_createTable fun htarget => hgone r hr ?_⟩
      exact mem_tableNames.mpr ⟨t, hx, (hplans.target_eq htarget).symm⟩

end

end SchemaPair

-- The tables get their new names ahead of everything else, and nothing behind that knows them under
-- their old names. A table that got a new name is neither dropped nor created.
theorem diff_table_renames_first {d : Dialect} {options : Options} {before after m : Script}
    (hold : (options.tableRenames.map (·.old)).Nodup)
    (hgone : ∀ r ∈ options.tableRenames, r.old ∉ tableNames after)
    (hplaced : ∀ o ∈ objects after, ∀ table ∈ o.indexedTable?, table ∈ tableNames after)
    (h : diff d options (some before) (some after) = .ok m) :
    ∃ renames rest, m = renames ++ rest ∧
      List.Forall₂ TableRename.IsDoneBy options.tableRenames renames ∧
      ∀ s ∈ rest, ¬s.IsTableRename ∧ ∀ r ∈ options.tableRenames, r.IsDoneBefore s := by
  obtain ⟨hrefusal, rfl, -⟩ := diff_some_eq_ok h
  refine ⟨_, _, SchemaPair.statements_steps _,
    SchemaPair.isDoneBy_renames (SchemaPair.tableHintRefusal?_of_steps hrefusal), ?_⟩
  intro s hs
  rcases List.mem_append.mp hs with hs | hs
  · exact SchemaPair.isBehindRenames_drops hrefusal s hs
  · rcases List.mem_append.mp hs with hs | hs
    · exact SchemaPair.isBehindRenames_creates hrefusal hgone hplaced hold s hs
    · exact SchemaPair.isBehindRenames_alters hgone hplaced s hs

def keyIndex (name table column : String) : Statement :=
  .createIndex ⟨false, false, .ofIdent (.bare name), .ofIdent (.bare table), none,
    [.ascending (.bare column)], none⟩

-- One index of the table is dropped and another one is created, both on the table as it is called
-- from then on.
theorem diff_table_renames_first_keyed : ∃ m,
    diff .mysql ⟨false, [⟨"t", "u"⟩], [⟨"u", "a", "b"⟩]⟩
      (some [keyed "t" "a" "t_pkey", keyIndex "i" "t" "a", keyed "v" "a" "v_pkey"])
      (some [keyed "u" "b" "u_pkey", keyIndex "j" "u" "b"]) = .ok m ∧
    m.length = 7 ∧ ∃ renames rest, m = renames ++ rest ∧
      List.Forall₂ TableRename.IsDoneBy [⟨"t", "u"⟩] renames ∧
      ∀ s ∈ rest, ¬s.IsTableRename ∧ ∀ r ∈ [TableRename.mk "t" "u"], r.IsDoneBefore s := by
  have hlength : ((diff .mysql ⟨false, [⟨"t", "u"⟩], [⟨"u", "a", "b"⟩]⟩
      (some [keyed "t" "a" "t_pkey", keyIndex "i" "t" "a", keyed "v" "a" "v_pkey"])
      (some [keyed "u" "b" "u_pkey", keyIndex "j" "u" "b"])).toOption.any
        fun m => decide (m.length = 7)) = true := by
    decide +kernel
  obtain ⟨m, hm, hlength⟩ := exists_diff hlength
  exact ⟨m, hm, of_decide_eq_true hlength, diff_table_renames_first (by decide +kernel)
    (by decide +kernel) (by decide +kernel) hm⟩

end Migration

end SchemaDiff
