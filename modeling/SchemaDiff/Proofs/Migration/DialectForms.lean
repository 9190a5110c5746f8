import SchemaDiff.Proofs.Migration.Passes
import SchemaDiff.Proofs.Migration.Rereading

namespace SchemaDiff

namespace Dialect

-- A column is changed as a whole or attribute by attribute. Indexes are not added as constraints.
def HasChange (d : Dialect) : TableChange → Prop
  | .modifyColumn _ => d = mysql
  | .alterColumn _ (.setDataType _) | .alterColumn _ .setNotNull | .alterColumn _ .dropNotNull
  | .renameConstraint _ _ => d ∈ [postgres, cockroach]
  | .addConstraint c notValid => c.isIndex = false ∧
      (notValid = true → d ∈ [postgres, cockroach] ∧ c.rule.IsAboutRows)
  | _ => True

-- Whether the dialect has statements of this form.
def Has (d : Dialect) : Statement → Prop
  | .alterTable _ change => d.HasChange change
  | .dropIndex _ _ table => table.isSome = true ↔ d = mysql
  | _ => True

variable {d : Dialect}

theorem mem_of_hasNotValid (h : d.hasNotValid = true) : d ∈ [postgres, cockroach] := by
  cases d <;> first | decide | cases h

theorem mem_of_hasRenameConstraint (h : d.hasRenameConstraint = true) :
    d ∈ [postgres, cockroach] := by
  cases d <;> first | decide | cases h

theorem mem_of_standard (h : d.alterColumnStyle = .standard) : d ∈ [postgres, cockroach] := by
  cases d <;> first | decide | cases h

theorem eq_mysql_of_modify (h : d.alterColumnStyle = .modify) : d = mysql := by
  cases d <;> first | rfl | cases h

theorem isSome_onTable_iff (table : ObjectName) :
    (if d.dropsIndexOnTable then some table else none).isSome = true ↔ d = mysql := by
  cases d <;> simp [dropsIndexOnTable]

end Dialect

-- The constraint that is no longer there under its name.
def TableChange.endedConstraint? : TableChange → Option String
  | dropConstraint name => some name.name
  | renameConstraint old _ => some old.name
  | _ => none

-- The table has the constraint, and it is not an index.
structure CreateTable.Demands (t : CreateTable) (name : String) : Prop where
  exists_mem : ∃ c ∈ t.constraints, c.name.name = name
  notIndex : ∀ c ∈ t.constraints, c.name.name = name → c.isIndex = false

namespace Migration

open SchemaObject Step

namespace TablePair

variable {q : TablePair} {s : Statement}

-- Whatever is planned for a table has a form of the dialect.
theorem Plans.has (h : q.Plans s) : q.dialect.Has s := by
  cases h with
  | renameConstraint _ _ hcan =>
      exact Dialect.mem_of_hasRenameConstraint (Bool.and_eq_true_iff.mp hcan).2
  | dropIndex _ _ => exact Dialect.isSome_onTable_iff q.new.name
  | setDataType _ hstyle => exact Dialect.mem_of_standard hstyle
  | @changeDefault new _ => cases new.default <;> trivial
  | @changeNull new _ hstyle => cases new.notNull <;> exact Dialect.mem_of_standard hstyle
  | modifyColumn _ hstyle => exact Dialect.eq_mysql_of_modify hstyle
  | addConstraint _ hindex hvalid =>
      exact ⟨hindex, fun h => ⟨Dialect.mem_of_hasNotValid (hvalid h).1, (hvalid h).2⟩⟩
  | _ => trivial

-- Renames of columns and tables keep the names of constraints and what is an index.
theorem exists_of_mem_oldConstraints {c : Constraint} (h : c ∈ q.oldConstraints) :
    ∃ k ∈ q.old.constraints, k.name = c.name ∧ k.isIndex = c.isIndex := by
  obtain ⟨k, hk, rfl⟩ := List.mem_map.mp h
  refine ⟨k, hk, rfl, ?_⟩
  simp only [Constraint.isIndex]
  cases k.rule <;> rfl

theorem demands_of_mem (hnames : (q.old.constraints.map (·.name.name)).Nodup) {c : Constraint}
    (hc : c ∈ q.oldConstraints) (hindex : c.isIndex = false) : q.old.Demands c.name.name := by
  obtain ⟨k, hk, hname, hsame⟩ := exists_of_mem_oldConstraints hc
  refine ⟨⟨k, hk, congrArg Ident.name hname⟩, fun k' hk' hname' => ?_⟩
  obtain rfl : k' = k :=
    List.inj_on_of_nodup_map hnames hk' hk (hname'.trans (congrArg Ident.name hname).symm)
  exact hsame.trans hindex

-- A constraint that is dropped or renamed by its name is one of the old table, and no index.
theorem Plans.demands (h : q.Plans s) (hnames : (q.old.constraints.map (·.name.name)).Nodup)
    {altered : ObjectName} {change : TableChange} (hs : s = .alterTable altered change) :
    altered = q.new.name ∧ ∀ name ∈ change.endedConstraint?, q.old.Demands name := by
  cases h with
  | renameConstraint hold _ hcan =>
      cases hs
      have hindex := (Bool.and_eq_true_iff.mp hcan).1
      exact ⟨rfl, fun name hname => Option.some.inj hname ▸
        demands_of_mem hnames hold (by simpa using hindex)⟩
  | dropConstraint hc hindex =>
      cases hs
      exact ⟨rfl, fun name hname => Option.some.inj hname ▸ demands_of_mem hnames hc hindex⟩
  | dropIndex | createIndex => cases hs
  | _ =>
      cases hs
      exact ⟨rfl, fun name hname => by cases hname⟩

end TablePair

namespace SchemaPair

-- No index of the old schema is dropped or renamed as a constraint: where a constraint of a table
-- is, the old version of the table has it, and has no index of that name.
def SparesIndexes (p : SchemaPair) : Statement → Prop
  | .alterTable altered change => ∀ name ∈ change.endedConstraint?,
      ∃ t, p.old? (.table altered.identity) = some (.table t) ∧ t.Demands name
  | _ => True

variable {p : SchemaPair}

theorem has_drops : Emits (fun s => p.dialect.Has s ∧ p.SparesIndexes s) p.drops := by
  refine .map_emit fun x _ => ?_
  cases x with
  | table t => exact ⟨trivial, trivial⟩
  | index i => exact ⟨Dialect.isSome_onTable_iff _, trivial⟩

theorem has_statement (x : SchemaObject) :
    p.dialect.Has x.statement ∧ p.SparesIndexes x.statement := by
  cases x <;> exact ⟨trivial, trivial⟩

theorem has_renames : Emits (fun s => p.dialect.Has s ∧ p.SparesIndexes s) p.renames := by
  refine .flatMap fun rename _ => ?_
  split
  · exact .note (.alter ⟨trivial, fun name hname => by cases hname⟩)
  · exact .of_statements_nil rfl

theorem has_alters (hnames : ∀ o ∈ objects p.before, o.constraintNames.Nodup) :
    Emits (fun s => p.dialect.Has s ∧ p.SparesIndexes s) p.alters := by
  refine .flatMap fun new _hnew => ?_
  unfold alterSteps
  split
  · split
    · exact .note (.emit (has_statement (.index _)))
    · exact .of_statements_nil rfl
  · rename_i old t hold
    have hmem : .table old ∈ objects p.before :=
      List.mem_reverse.mp (List.mem_of_find?_eq_some hold)
    intro s hs
    have hplans := TablePair.plans_steps s hs
    refine ⟨hplans.has, ?_⟩
    cases s with
    | alterTable altered change =>
        obtain ⟨rfl, hdemands⟩ := hplans.demands (hnames _ hmem) rfl
        exact fun name hname => ⟨old, hold, hdemands name hname⟩
    | _ => trivial
  · exact .of_statements_nil rfl

end SchemaPair

-- A migration is made of statements that the dialect has, and treats the indexes of the old schema
-- as indexes.
theorem diff_has_forms {d : Dialect} {options : Options} {before after m : Script}
    (hnames : ∀ o ∈ objects before, o.constraintNames.Nodup)
    (h : diff d options (some before) (some after) = .ok m) :
    ∀ s ∈ m, d.Has s ∧ SchemaPair.SparesIndexes ⟨d, options, before, after⟩ s := by
  obtain ⟨-, rfl, -⟩ := diff_some_eq_ok h
  rw [SchemaPair.statements_steps]
  simp only [List.mem_append]
  rintro s (hs | hs | hs | hs)
  · exact SchemaPair.has_renames s hs
  · exact SchemaPair.has_drops s hs
  · rw [SchemaPair.statements_creates] at hs
    obtain ⟨x, -, rfl⟩ := List.mem_map.mp hs
    exact SchemaPair.has_statement (p := ⟨d, options, before, after⟩) x
  · exact SchemaPair.has_alters hnames s hs

-- A table with columns of one type, some checks, and an index over the column `a`.
def guarded (table type : String) (notNull : Bool) (columns : List String)
    (checks : List (String × List String)) (index : String) : Statement :=
  .createTable ⟨false, .ofIdent (.bare table),
    columns.map fun c => ⟨.bare c, ⟨type, [], [], 0⟩, notNull, none, false⟩,
    checks.map (fun c => ⟨.bare c.1, .check ⟨c.2.map .bare⟩⟩) ++
      [⟨.bare index, .index false [.ascending (.bare "a")]⟩], []⟩

-- A table is renamed with a check and an index. The check is renamed, but the index is dropped and
-- created anew, since it is no constraint. The new check is not applied to the rows that exist.
theorem diff_has_forms_renamed :
    let before : Script := [guarded "t" "INT" false ["a", "b"]
      [("t_c", ["a", ">", "0"]), ("g", ["b", ">", "0"])] "t_i"]
    let after : Script := [guarded "u" "INT8" true ["a"]
      [("u_c", ["a", ">", "0"]), ("f", ["a", "<", "9"])] "u_i"]
    ∃ m, diff .cockroach ⟨true, [⟨"t", "u"⟩], []⟩ (some before) (some after) = .ok m ∧
      m.length = 9 ∧ ∀ s ∈ m, Dialect.cockroach.Has s ∧
        SchemaPair.SparesIndexes ⟨.cockroach, ⟨true, [⟨"t", "u"⟩], []⟩, before, after⟩ s := by
  intro before after
  have htest : (diff .cockroach ⟨true, [⟨"t", "u"⟩], []⟩ (some before) (some after)).toOption.any
      (fun m => decide (m.length = 9)) = true := by
    decide +kernel
  obtain ⟨m, hm, hlength⟩ := exists_diff htest
  exact ⟨m, hm, of_decide_eq_true hlength, diff_has_forms (by decide) hm⟩

end Migration

end SchemaDiff
