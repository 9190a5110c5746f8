import SchemaDiff.Proofs.Migration.RenamedSchema

namespace SchemaDiff

-- The reference of a table is to the table itself, or the columns that it names read the same under
-- their new names.
def Reference.KeepsColumns (r : Renaming) (table : String) (target : Reference) : Prop :=
  r.table target.table.identity = r.table table ∨
    ColumnIdent.listSpelled Ident.name (target.renamed r).columns =
      ColumnIdent.listSpelled Ident.name target.columns

instance (r : Renaming) (table : String) : DecidablePred (Reference.KeepsColumns r table) :=
  fun _ => inferInstanceAs (Decidable (_ ∨ _))

def Rule.KeepsTarget (r : Renaming) (table : String) : Rule → Prop
  | foreignKey _ target => target.KeepsColumns r table
  | _ => True

instance (r : Renaming) (table : String) : DecidablePred (Rule.KeepsTarget r table)
  | .foreignKey _ target => inferInstanceAs (Decidable (target.KeepsColumns r table))
  | .primaryKey _ | .unique _ | .check _ | .index _ _ => isTrue trivial

def Statement.IsRename : Statement → Prop
  | alterTable _ (.renameTable _) | alterTable _ (.renameColumn _ _) => True
  | _ => False

namespace Migration

open Step

namespace TablePair

variable {q : TablePair} {o : Options}

-- The pair after its hints were carried out.
def carriedOut (q : TablePair) : TablePair :=
  { q with
    old := { q.old with columns := q.oldColumns, constraints := q.oldConstraints }
    renamedFrom := none
    columnRenames := []
    tableRenames := [] }

theorem unhinted_carriedOut (q : TablePair) : q.carriedOut.Unhinted :=
  ⟨rfl, rfl, rfl⟩

-- The new version is the old one under its new names.
structure PureRename (o : Options) (q : TablePair) : Prop where
  tableRenames : q.tableRenames = o.tableRenames
  columnRenames : q.columnRenames = o.columnRenamesOf (o.renaming.table q.old.name.identity)
  renamed : q.new.unquoted = (q.old.renamed o.renaming).unquoted
  columnNames : (q.old.columns.map (·.name.name)).Nodup
  constraintNames : (q.old.constraints.map (·.name.name)).Nodup
  oldHints : (q.columnRenames.map (·.old)).Nodup
  newHints : (q.columnRenames.map (·.new)).Nodup
  hints : ∀ r ∈ q.columnRenames,
    r.old ∈ q.old.columns.map (·.name.name) ∧ r.new ∉ q.old.columns.map (·.name.name)

theorem column?_isSome {t : CreateTable} {name : String} :
    (t.column? name).isSome ↔ name ∈ t.columns.map (·.name.name) := by
  simp [CreateTable.column?]

namespace PureRename

variable (h : q.PureRename o)

include h

theorem table_eq : q.table = o.renaming.table q.old.name.identity :=
  congrArg (fun t : CreateTable => t.name.identity) h.renamed

theorem columns : List.Forall₂
    (fun c c' => c'.unquoted = (c.renamed o.renaming q.old.name.identity).unquoted)
    q.old.columns q.new.columns := by
  have hcolumns := congrArg CreateTable.columns h.renamed.symm
  simp only [CreateTable.unquoted, CreateTable.renamed, List.map_map] at hcolumns
  rw [map_eq_map_iff] at hcolumns
  exact hcolumns.imp fun _ _ => Eq.symm

theorem constraints : List.Forall₂
    (fun c c' => c'.unquoted = (c.renamed o.renaming q.old.name.identity).unquoted)
    q.old.constraints q.new.constraints := by
  have hconstraints := congrArg CreateTable.constraints h.renamed.symm
  simp only [CreateTable.unquoted, CreateTable.renamed, List.map_map] at hconstraints
  rw [map_eq_map_iff] at hconstraints
  exact hconstraints.imp fun _ _ => Eq.symm

theorem map_constraintNames :
    q.old.constraints.map (·.name.name) = q.new.constraints.map (·.name.name) := by
  rw [map_eq_map_iff]
  exact h.constraints.imp fun _ _ hsame => (Constraint.name_of_unquoted hsame).symm

theorem map_columnNames : q.new.columns.map (·.name.name) =
    (q.old.columns.map (·.name.name)).map (newName (q.columnRenames.map fun r => (r.old, r.new))) := by
  rw [List.map_map, map_eq_map_iff, h.columnRenames]
  exact h.columns.flip.imp fun _ _ hsame => Column.name_of_unquoted hsame

theorem newColumnNames : (q.new.columns.map (·.name.name)).Nodup := by
  rw [h.map_columnNames]
  refine h.columnNames.map_on fun a ha b hb => newName_inj ?_ ?_ ha hb
  · simpa using fun r hr => (h.hints r hr).2
  · simpa [Function.comp_def] using h.newHints

-- The old constraints keep their names.
theorem constraint?_isSome {old : Constraint} (hold : old ∈ q.oldConstraints) :
    (q.new.constraint? old.name.name).isSome := by
  obtain ⟨c, hc, rfl⟩ := List.mem_map.mp hold
  have hname : c.name.name ∈ q.new.constraints.map (·.name.name) :=
    h.map_constraintNames ▸ List.mem_map_of_mem hc
  obtain ⟨c', hc', hname⟩ := List.mem_map.mp hname
  exact List.find?_isSome.mpr ⟨c', hc', by simp [hname]⟩

-- No constraint takes the name that its table lends it.
theorem moved?_eq_none {old : Constraint} (hold : old ∈ q.oldConstraints) :
    q.moved? old = none := by
  cases hname : q.movedName? old.name.name <;> simp [moved?, hname, h.constraint?_isSome hold]

theorem renamedConstraints_eq_nil : q.renamedConstraints = [] := by
  refine List.filterMap_eq_nil_iff.mpr fun old hold => ?_
  simp [h.moved?_eq_none hold]

theorem renameConstraintSteps_eq_nil : q.renameConstraintSteps = [] := by
  refine List.flatMap_eq_nil_iff.mpr fun old hold => ?_
  simp [h.moved?_eq_none hold]

theorem counterpart?_eq (old : Constraint) :
    q.counterpart? old = q.carriedOut.counterpart? old := by
  rw [q.unhinted_carriedOut.counterpart?_eq, counterpart?, h.renamedConstraints_eq_nil]
  rfl

theorem dropConstraintSteps_eq : q.dropConstraintSteps = q.carriedOut.dropConstraintSteps := by
  unfold dropConstraintSteps changed?
  simp only [h.counterpart?_eq]
  rw [q.unhinted_carriedOut.oldConstraints_eq]
  rfl

theorem addConstraintSteps_eq : q.addConstraintSteps = q.carriedOut.addConstraintSteps := by
  have hexisted : ∀ new, q.existed new = q.carriedOut.existed new := by
    intro new
    rw [q.unhinted_carriedOut.existed_eq, existed, h.renamedConstraints_eq_nil, List.any_nil,
      Bool.or_false]
    rfl
  have hchanged : ∀ new, q.wasChanged new = q.carriedOut.wasChanged new := by
    intro new
    unfold wasChanged changed?
    simp only [h.counterpart?_eq]
    rw [q.unhinted_carriedOut.oldConstraints_eq]
    rfl
  unfold addConstraintSteps
  simp only [hexisted, hchanged]
  rfl

omit h in
theorem columnSteps_eq (q : TablePair) : q.columnSteps =
    q.columnRenames.flatMap q.renameColumnStep ++ (q.carriedOut.dropColumnSteps ++
      (q.carriedOut.alterColumnSteps ++ q.carriedOut.addColumnSteps)) := by
  unfold columnSteps dropColumnSteps alterColumnSteps addColumnSteps oldColumn?
  rw [q.unhinted_carriedOut.oldColumns_eq]
  simp only [List.append_assoc]
  rfl

theorem listSpelled_renameColumns (columns : List ColumnIdent) :
    ColumnIdent.listSpelled Ident.name (renameColumns q.dialect q.columnRenames columns) =
      ColumnIdent.listSpelled Ident.name
        (ColumnIdent.listRenamed o.renaming q.old.name.identity columns) := by
  rw [← ColumnIdent.listSpelled_unquoted, h.columnRenames, unquoted_renameColumns,
    ColumnIdent.listSpelled_unquoted]

-- A reference of the table to itself follows its columns, one to another table does not.
theorem identity_renameReference_iff (target : Reference) :
    (target.renamed o.renaming).identity = (q.renameReference target).identity ↔
      target.KeepsColumns o.renaming q.old.name.identity := by
  have htable : (renameTable q.dialect q.tableRenames target.table).identity =
      o.renaming.table target.table.identity := by
    rw [h.tableRenames]
    exact congrArg ObjectName.identity (unquoted_renameTable q.dialect o target.table)
  have hidentity : ∀ (table : ObjectName) (columns : List ColumnIdent),
      ({ target with table, columns } : Reference).identity =
        table.identity ++ " " ++ ColumnIdent.listSpelled Ident.name columns ++ target.actions :=
    fun _ _ => rfl
  have hrenamed : (target.renamed o.renaming).identity = o.renaming.table target.table.identity ++
      " " ++ ColumnIdent.listSpelled Ident.name (target.renamed o.renaming).columns ++
        target.actions := rfl
  unfold renameReference Reference.KeepsColumns
  dsimp only
  rw [hidentity, htable, hrenamed, show q.new.name.identity = _ from h.table_eq]
  by_cases hself : o.renaming.table target.table.identity = o.renaming.table q.old.name.identity
  · have hcolumn : o.renaming.column target.table.identity =
        o.renaming.column q.old.name.identity :=
      congrArg (fun table => newName ((o.columnRenamesOf table).map
        fun r : ColumnRename => (r.old, r.new))) hself
    refine iff_of_true ?_ (.inl hself)
    rw [if_pos hself, h.listSpelled_renameColumns]
    simp only [Reference.renamed, ColumnIdent.listRenamed, hcolumn]
  · rw [if_neg hself, String.append_left_inj, String.append_right_inj]
    exact (or_iff_right hself).symm

theorem identity_renameRule_iff (rule : Rule) :
    (rule.renamed o.renaming q.old.name.identity).identity = (q.renameRule rule).identity ↔
      rule.KeepsTarget o.renaming q.old.name.identity := by
  cases rule with
  | check body => exact iff_of_true rfl trivial
  | foreignKey columns target =>
      rw [Rule.renamed, renameRule, Rule.identity, Rule.identity, h.listSpelled_renameColumns,
        String.append_right_inj]
      exact h.identity_renameReference_iff target
  | _ =>
      refine iff_of_true ?_ trivial
      simp only [Rule.renamed, renameRule, Rule.identity, h.listSpelled_renameColumns]

-- Constraints are left alone if and only if the foreign keys to other tables read the same.
theorem quiet_constraintSteps_iff :
    Quiet q.dropConstraintSteps ∧ Quiet q.addConstraintSteps ↔
      ∀ c ∈ q.old.constraints, c.rule.KeepsTarget o.renaming q.old.name.identity := by
  have hold : (q.carriedOut.old.constraints.map (·.name.name)).Nodup := by
    simpa [carriedOut, oldConstraints, Function.comp_def] using h.constraintNames
  have hnew : (q.new.constraints.map (·.name.name)).Nodup :=
    h.map_constraintNames ▸ h.constraintNames
  rw [h.dropConstraintSteps_eq, h.addConstraintSteps_eq,
    quiet_constraints q.unhinted_carriedOut hold hnew]
  refine matched_map_iff h.constraints hnew ?_ fun c c' hsame => ?_
  · exact fun _ _ hsame => (Constraint.name_of_unquoted hsame).symm
  · rw [Constraint.definition_of_unquoted hsame]
    exact h.identity_renameRule_iff c.rule

-- Columns are left alone but for their names.
theorem quiet_columnSteps : Quiet q.carriedOut.dropColumnSteps ∧
    Quiet q.carriedOut.alterColumnSteps ∧ Quiet q.carriedOut.addColumnSteps := by
  have hsame : ∀ c c' : Column, c'.unquoted = (c.renamed o.renaming q.old.name.identity).unquoted →
      ({ c with name := renameColumn q.dialect q.columnRenames c.name } : Column).unquoted =
        c'.unquoted := by
    intro c c' hsame
    rw [hsame, h.columnRenames]
    simp only [Column.unquoted, Column.renamed, Ident.unquoted, name_renameColumn, Ident.bare]
  have hnames : q.carriedOut.old.columns.map (·.name.name) = q.new.columns.map (·.name.name) := by
    show q.oldColumns.map _ = _
    rw [oldColumns, List.map_map, map_eq_map_iff]
    exact h.columns.imp fun c c' hc => Column.name_of_unquoted (hsame c c' hc)
  rw [quiet_columns q.unhinted_carriedOut (hnames ▸ h.newColumnNames) h.newColumnNames]
  refine (matched_map_iff (P := fun _ => True) h.columns h.newColumnNames ?_ fun c c' hc => ?_).mpr
    fun _ _ => trivial
  · exact fun c c' hc => Column.name_of_unquoted (hsame c c' hc)
  · exact iff_of_true (quiet_alterColumnStep.mpr (Column.demands_of_unquoted (hsame c c' hc))) trivial

theorem quiet_optionSteps : Quiet q.optionSteps := by
  have hoptions := congrArg CreateTable.options h.renamed
  refine TablePair.quiet_optionSteps.mpr ?_
  rw [CreateTable.map_identity, CreateTable.map_identity]
  exact congrArg _ hoptions.symm

-- Every hint finds its column in the old version, and under its new name in the new one.
theorem refusal?_renameColumnStep {r : ColumnRename} (hr : r ∈ q.columnRenames) :
    refusal? (q.renameColumnStep r) = none := by
  obtain ⟨hthere, hfree⟩ := h.hints r hr
  have hpair : (r.old, r.new) ∈ q.columnRenames.map fun r => (r.old, r.new) :=
    List.mem_map_of_mem hr
  have hpairs : ∀ p ∈ q.columnRenames.map (fun r => (r.old, r.new)),
      p.2 ∉ q.old.columns.map (·.name.name) := by
    simpa using fun r hr => (h.hints r hr).2
  have hnew : r.new ∈ q.new.columns.map (·.name.name) := by
    have hname : newName (q.columnRenames.map fun r => (r.old, r.new)) r.old = r.new :=
      newName_of_mem (by simpa [Function.comp_def] using h.oldHints) hpair
    rw [h.map_columnNames, ← hname]
    exact List.mem_map_of_mem hthere
  have hgone : r.old ∉ q.new.columns.map (·.name.name) := by
    rw [h.map_columnNames]
    rintro hmem
    obtain ⟨name, -, hname⟩ := List.mem_map.mp hmem
    exact newName_ne hpairs hpair hthere name hname
  obtain ⟨c, hc⟩ := Option.isSome_iff_exists.mp (column?_isSome.mpr hthere)
  obtain ⟨c', hc'⟩ := Option.isSome_iff_exists.mp (column?_isSome.mpr hnew)
  unfold renameColumnStep
  rw [hc, hc']
  dsimp only
  rw [if_neg (fun hsome => hgone (column?_isSome.mp hsome))]
  rfl

theorem isDoneBy_renameColumns : List.Forall₂ ColumnRename.IsDoneBy q.columnRenames
    (statements (q.columnRenames.flatMap q.renameColumnStep)) := by
  rw [statements_flatMap]
  nth_rewrite 1 [← List.flatMap_singleton' q.columnRenames]
  refine forall₂_flatMap fun r hr => ?_
  obtain ⟨old, new, hold, hnew, -, hstep⟩ :=
    exists_renameColumnStep (h.refusal?_renameColumnStep hr)
  have htable : r.table = q.table := by
    rw [h.columnRenames] at hr
    rw [h.table_eq]
    simpa using (List.mem_filter.mp hr).2
  rw [hstep]
  refine .cons ⟨htable.symm, ?_, ?_⟩ .nil
  · simpa using List.find?_some hold
  · simpa using List.find?_some hnew

-- Where the foreign keys read the same, all that is planned for the table are its hints.
theorem statements_steps
    (hkeeps : ∀ c ∈ q.old.constraints, c.rule.KeepsTarget o.renaming q.old.name.identity) :
    refusal? q.steps = none ∧
      statements q.steps = statements (q.columnRenames.flatMap q.renameColumnStep) := by
  obtain ⟨hdrop, hadd⟩ := h.quiet_constraintSteps_iff.mpr hkeeps
  have hsplit : q.steps = (q.optionSteps ++ [.note (.comparingTable q.new.name)] ++
      q.dropConstraintSteps) ++ (q.columnRenames.flatMap q.renameColumnStep ++
        ((q.carriedOut.dropColumnSteps ++
          (q.carriedOut.alterColumnSteps ++ q.carriedOut.addColumnSteps)) ++
            q.addConstraintSteps)) := by
    rw [steps, columnSteps_eq, h.renameConstraintSteps_eq_nil]
    simp only [List.append_assoc, List.nil_append]
  have hahead : Quiet (q.optionSteps ++ [.note (.comparingTable q.new.name)] ++
      q.dropConstraintSteps) :=
    quiet_append.mpr ⟨quiet_append.mpr ⟨h.quiet_optionSteps, quiet_note.mpr quiet_nil⟩, hdrop⟩
  have hbehind : Quiet ((q.carriedOut.dropColumnSteps ++
      (q.carriedOut.alterColumnSteps ++ q.carriedOut.addColumnSteps)) ++ q.addConstraintSteps) := by
    simp only [quiet_append]
    exact ⟨h.quiet_columnSteps, hadd⟩
  have hrename : refusal? (q.columnRenames.flatMap q.renameColumnStep) = none := by
    refine refusal?_eq_none_iff.mpr fun step hs => ?_
    obtain ⟨r, hr, hs⟩ := List.mem_flatMap.mp hs
    exact refusal?_eq_none_iff.mp (h.refusal?_renameColumnStep hr) step hs
  obtain ⟨hrefusal, hstatements⟩ := hahead.around hbehind (q.columnRenames.flatMap q.renameColumnStep)
  rw [hsplit]
  exact ⟨hrefusal.trans hrename, hstatements⟩

end PureRename

-- Whatever is done about constraints is no rename.
theorem not_isRename_constraintSteps (q : TablePair) :
    Emits (fun s => ¬s.IsRename) (q.dropConstraintSteps ++ q.addConstraintSteps) := by
  have hdrop : ∀ c, Emits (fun s => ¬s.IsRename) (q.dropConstraint c) := by
    intro c
    unfold dropConstraint
    split
    · exact .announce id
    · exact .alter id
  refine .append (.flatMap fun c _ => ?_) (.flatMap fun c _ => ?_)
  · split
    · exact hdrop c
    · split
      · exact .note (hdrop c)
      · exact .of_statements_nil rfl
  · split
    · unfold addConstraint
      split
      · exact .announce id
      all_goals exact .alter id
    · exact .of_statements_nil rfl

end TablePair

end Migration

end SchemaDiff
