import SchemaDiff.Proofs.Directory
import SchemaDiff.Proofs.Migration.Orderly
import SchemaDiff.Proofs.Migration.Passes

namespace SchemaDiff.Migration

open SchemaObject Directory

namespace TablePair

variable {p : TablePair} {o : Directory}

-- Every rename in the table starts from a name of the old table and ends at one that was free.
structure Apt (p : TablePair) : Prop where
  oldColumns : (p.columnRenames.map (·.old)).Nodup
  newColumns : (p.columnRenames.map (·.new)).Nodup
  freeColumns : ∀ r ∈ p.columnRenames, r.new ∉ p.old.members.columns
  freeConstraints : ∀ r ∈ p.renamedConstraints, r.new.name.name ∉ p.old.members.constraints

instance : DecidablePred Apt := fun p =>
  decidable_of_iff ((p.columnRenames.map (·.old)).Nodup ∧ (p.columnRenames.map (·.new)).Nodup ∧
    (∀ r ∈ p.columnRenames, r.new ∉ p.old.members.columns) ∧
    ∀ r ∈ p.renamedConstraints, r.new.name.name ∉ p.old.members.constraints)
    ⟨fun ⟨h₁, h₂, h₃, h₄⟩ => ⟨h₁, h₂, h₃, h₄⟩,
      fun h => ⟨h.oldColumns, h.newColumns, h.freeColumns, h.freeConstraints⟩⟩

-- A statement that every state admits.
def Free (s : Statement) : Prop :=
  ∀ o, watch.Admits o s

theorem free_dropConstraintSteps : Step.Emits Free p.dropConstraintSteps := by
  have hdrop : ∀ c, Step.Emits Free (p.dropConstraint c) := by
    intro c
    unfold dropConstraint
    split
    · exact .announce fun _ => trivial
    · exact .alter fun _ => trivial
  refine .flatMap fun c _ => ?_
  split
  · exact hdrop c
  · split
    · exact .note (hdrop c)
    · exact .of_statements_nil rfl

theorem free_dropColumnSteps : Step.Emits Free p.dropColumnSteps := by
  refine .flatMap fun c _ => ?_
  split
  · exact .alter fun _ => trivial
  · exact .of_statements_nil rfl

theorem free_alterColumnStep (old new : Column) : Step.Emits Free (p.alterColumnStep old new) := by
  have hchange : ∀ change, Step.Emits Free (p.changeColumn new change) :=
    fun change => .alter fun _ => trivial
  have hdefault : Step.Emits Free (p.defaultSteps old new) := by
    unfold defaultSteps
    split
    · exact .of_statements_nil rfl
    · exact hchange _
  unfold alterColumnStep
  split
  · split
    · exact .alter fun _ => trivial
    · exact hdefault
  · split
    · exact .of_statements_nil rfl
    · refine .append (.append ?_ hdefault) ?_
      · split
        · exact .of_statements_nil rfl
        · exact hchange _
      · unfold nullSteps
        split
        · exact .of_statements_nil rfl
        · exact hchange _

theorem free_alterColumnSteps : Step.Emits Free p.alterColumnSteps := by
  refine .flatMap fun new _ => ?_
  split
  · exact free_alterColumnStep _ new
  · exact .of_statements_nil rfl

theorem free_addColumnSteps : Step.Emits Free p.addColumnSteps := by
  refine .flatMap fun c _ => ?_
  split
  · exact .alter fun _ => trivial
  · exact .of_statements_nil rfl

theorem free_addConstraintSteps : Step.Emits Free p.addConstraintSteps := by
  refine .flatMap fun c _ => ?_
  split
  · unfold addConstraint
    split
    · exact .announce fun _ => trivial
    · exact .alter fun _ => trivial
    · exact .alter fun _ => trivial
    · exact .alter fun _ => trivial
    · exact .alter fun _ => trivial
  · exact .of_statements_nil rfl

theorem statements_renameConstraintSteps : Step.statements p.renameConstraintSteps =
    (p.renamedConstraints.map fun r => (r.old.name, r.new.name)).map fun r =>
      .alterTable p.new.name (MemberKind.constraint.rename r.1 r.2) := by
  rw [renameConstraintSteps, renamedConstraints, Step.statements_flatMap,
    List.filterMap_eq_flatMap_toList, List.map_flatMap, List.map_flatMap]
  refine List.flatMap_congr fun c _ => ?_
  cases hm : p.moved? c with
  | none => simp
  | some new =>
      by_cases hcan : p.canRename c = true
      · simp [hcan, alter, MemberKind.rename]
      · simp [hcan]

theorem exists_renameColumnStep {r : ColumnRename}
    (h : Step.refusal? (p.renameColumnStep r) = none) : ∃ old new : Column,
      p.old.column? r.old = some old ∧ p.new.column? r.new = some new ∧
      p.new.column? r.old = none ∧ Step.statements (p.renameColumnStep r) =
        [.alterTable p.new.name (MemberKind.column.rename old.name new.name)] := by
  unfold renameColumnStep at h ⊢
  cases hold : p.old.column? r.old with
  | none => simp [hold, Step.refusal?] at h
  | some old =>
      cases hnew : p.new.column? r.new with
      | none => simp [hold, hnew, Step.refusal?] at h
      | some new =>
          cases hkept : p.new.column? r.old with
          | some kept => simp [hold, hnew, hkept, Step.refusal?] at h
          | none => exact ⟨old, new, rfl, rfl, rfl, rfl⟩

theorem exists_renamedColumns {renames : List ColumnRename}
    (h : ∀ r ∈ renames, Step.refusal? (p.renameColumnStep r) = none) :
    ∃ names : List (Ident × Ident),
      Step.statements (renames.flatMap p.renameColumnStep) =
        names.map (fun r => .alterTable p.new.name (MemberKind.column.rename r.1 r.2)) ∧
      names.map (fun r => (r.1.name, r.2.name)) = renames.map fun r => (r.old, r.new) := by
  induction renames with
  | nil => exact ⟨[], rfl, rfl⟩
  | cons r renames ih =>
      obtain ⟨names, hstatements, hnames⟩ := ih fun r hr => h r (by simp [hr])
      obtain ⟨old, new, hold, hnew, -, hstep⟩ := exists_renameColumnStep (h r (by simp))
      have hr : (old.name.name, new.name.name) = (r.old, r.new) := by
        simpa using And.intro (List.find?_some hold) (List.find?_some hnew)
      refine ⟨(old.name, new.name) :: names, ?_, ?_⟩
      · rw [List.flatMap_cons, Step.statements_append, hstep, hstatements]
        rfl
      · rw [List.map_cons, List.map_cons, hr, hnames]

-- A constraint gets the name that it would have been derived from the new name of the table.
theorem mem_renamedConstraints {r : RenamedConstraint} (h : r ∈ p.renamedConstraints) :
    r.old ∈ p.oldConstraints ∧ p.canRename r.old = true ∧ p.moved? r.old = some r.new := by
  obtain ⟨old, hold, hr⟩ := List.mem_filterMap.mp h
  split at hr
  · rename_i hcan
    obtain ⟨new, hnew, rfl⟩ := Option.map_eq_some_iff.mp hr
    exact ⟨hold, hcan, hnew⟩
  · cases hr

theorem moved?_eq_some {old new : Constraint} (h : p.moved? old = some new) :
    p.movedName? old.name.name = some new.name.name ∧ p.new.constraint? old.name.name = none ∧
      (p.new.constraint? new.name.name).isSome = true := by
  simp only [moved?, Option.bind_eq_bind, Option.bind_eq_some_iff] at h
  obtain ⟨name, hname, h⟩ := h
  split at h
  · cases h
  · rename_i hold
    obtain ⟨found, hfound, h⟩ := Option.bind_eq_some_iff.mp h
    split at h
    · cases h
      obtain rfl : new.name.name = name := by simpa using List.find?_some hfound
      exact ⟨hname, by simpa using hold, by rw [hfound]; rfl⟩
    · cases h

theorem movedName?_inj {name name' moved : String} (h : p.movedName? name = some moved)
    (h' : p.movedName? name' = some moved) : name = name' := by
  simp only [movedName?, Option.bind_eq_bind, Option.bind_eq_some_iff] at h h'
  obtain ⟨table, htable, suffix, hsuffix, hmoved⟩ := h
  obtain ⟨table', htable', suffix', hsuffix', hmoved'⟩ := h'
  obtain rfl : table = table' := Option.some.inj (htable.symm.trans htable')
  have hsame := (Option.some.inj hmoved).trans (Option.some.inj hmoved').symm
  rw [String.append_right_inj, String.ofList_inj] at hsame
  rw [← String.toList_inj, ← List.append_eq_of_isPrefixOf?_eq_some hsuffix,
    ← List.append_eq_of_isPrefixOf?_eq_some hsuffix', hsame]

theorem isIndex_renameRule (c : Constraint) :
    ({ c with rule := p.renameRule c.rule } : Constraint).isIndex = c.isIndex := by
  cases hrule : c.rule <;> simp [Constraint.isIndex, hrule, renameRule, Rule.isIndex]

theorem mem_indexes_of_oldConstraints {c : Constraint} (h : c ∈ p.oldConstraints)
    (hindex : c.isIndex = true) : c.name.name ∈ p.old.members.indexes := by
  obtain ⟨c, hc, rfl⟩ := List.mem_map.mp h
  rw [isIndex_renameRule] at hindex
  simp only [CreateTable.members, List.mem_toFinset, List.mem_map, List.mem_filter]
  exact ⟨c, ⟨hc, hindex⟩, rfl⟩

theorem oldName_of_renamed {r : RenamedConstraint} (h : r ∈ p.renamedConstraints) :
    r.old.name.name ∈ p.old.members.constraints := by
  obtain ⟨c, hc, heq⟩ := List.mem_map.mp (mem_renamedConstraints h).1
  rw [← heq]
  simp only [CreateTable.members, List.mem_toFinset, List.mem_map]
  exact ⟨c, hc, rfl⟩

-- The old names of a table are told apart, and so are the names that they become.
theorem renamable_constraints_iff (h : (p.old.constraints.map (·.name.name)).Nodup) :
    Renamable (· ∈ p.old.members.constraints)
        (p.renamedConstraints.map fun r => (r.old.name.name, r.new.name.name)) ↔
      ∀ r ∈ p.renamedConstraints, r.new.name.name ∉ p.old.members.constraints := by
  have hnames : (p.renamedConstraints.map (·.old.name.name)).Nodup := by
    have hold : (p.oldConstraints.map (·.name.name)).Nodup := by
      simpa [oldConstraints, Function.comp_def] using h
    refine Store.nodup_map_filterMap (·.name.name) (fun c r hr => ?_) hold
    split at hr
    · obtain ⟨new, -, rfl⟩ := Option.map_eq_some_iff.mp hr
      rfl
    · cases hr
  have hmoved : ∀ r ∈ p.renamedConstraints,
      p.movedName? r.old.name.name = some r.new.name.name :=
    fun r hr => (moved?_eq_some (mem_renamedConstraints hr).2.2).1
  have hnew : (p.renamedConstraints.map (·.new.name.name)).Nodup := by
    refine List.nodup_map_iff_inj_on (List.Nodup.of_map _ hnames) |>.mpr fun r hr r' hr' heq => ?_
    have hold := movedName?_inj (hmoved r hr) (heq ▸ hmoved r' hr')
    exact List.inj_on_of_nodup_map hnames hr hr' hold
  rw [renamable_iff]
  · simp only [List.forall_mem_map, List.map_map]
    constructor
    · exact fun hall r hr => (hall.1 r hr).2
    · exact fun hfree => ⟨fun r hr => ⟨oldName_of_renamed hr, hfree r hr⟩, hnames, hnew⟩
  · simp only [List.forall_mem_map]
    intro r hr r' hr' heq
    have hgone := (moved?_eq_some (mem_renamedConstraints hr).2.2).2.1
    have hthere := (moved?_eq_some (mem_renamedConstraints hr').2.2).2.2
    rw [← heq, hgone] at hthere
    cases hthere

theorem renamable_columns_iff (h : ∀ r ∈ p.columnRenames,
      Step.refusal? (p.renameColumnStep r) = none) :
    Renamable (· ∈ p.old.members.columns) (p.columnRenames.map fun r => (r.old, r.new)) ↔
      (p.columnRenames.map (·.old)).Nodup ∧ (p.columnRenames.map (·.new)).Nodup ∧
        ∀ r ∈ p.columnRenames, r.new ∉ p.old.members.columns := by
  have hold : ∀ r ∈ p.columnRenames, r.old ∈ p.old.members.columns := by
    intro r hr
    obtain ⟨old, -, hfound, -⟩ := exists_renameColumnStep (h r hr)
    simp only [CreateTable.members, List.mem_toFinset, List.mem_map]
    exact ⟨old, List.mem_of_find?_eq_some hfound, by simpa using List.find?_some hfound⟩
  rw [renamable_iff]
  · simp only [List.forall_mem_map, List.map_map]
    constructor
    · exact fun ⟨hall, hfrom, hto⟩ => ⟨hfrom, hto, fun r hr => (hall r hr).2⟩
    · exact fun ⟨hfrom, hto, hfree⟩ => ⟨fun r hr => ⟨hold r hr, hfree r hr⟩, hfrom, hto⟩
  · simp only [List.forall_mem_map]
    intro r hr r' hr' heq
    obtain ⟨-, -, -, -, hgone, -⟩ := exists_renameColumnStep (h r hr)
    obtain ⟨-, new, -, hthere, -⟩ := exists_renameColumnStep (h r' hr')
    rw [heq, hthere] at hgone
    cases hgone

-- Constraints are renamed and dropped without a change of the columns.
def KeepsColumns (p : TablePair) (s : Statement) : Prop :=
  ∀ o : Directory, (watch.exec o s p.table).map Members.columns = (o p.table).map Members.columns

theorem keepsColumns_alter {change : TableChange} (hrename : ∀ new, change ≠ .renameTable new)
    (h : ∀ m : Members, (m.change change).columns = m.columns) :
    p.KeepsColumns (.alterTable p.new.name change) := by
  intro o
  have hexec : watch.exec o (.alterTable p.new.name change) =
      Function.update o p.table ((o p.table).map (·.change change)) := by
    cases change with
    | renameTable new => exact absurd rfl (hrename new)
    | _ => rfl
  rw [hexec, Function.update_self, Option.map_map]
  exact congrArg (fun f => (o p.table).map f) (funext h)

theorem keepsColumns_constraintSteps :
    Step.Emits p.KeepsColumns (p.renameConstraintSteps ++ p.dropConstraintSteps) := by
  have hindex : ∀ (m : Members) name, (m.dropIndex name).columns = m.columns := by
    intro m name
    unfold Members.dropIndex
    split <;> rfl
  have hdrop : ∀ c, Step.Emits p.KeepsColumns (p.dropConstraint c) := by
    intro c
    unfold dropConstraint
    split
    · refine .announce fun o => ?_
      split
      · rw [exec_dropIndex_on, Function.update_self, Option.map_map]
        exact congrArg (fun f => (o p.table).map f) (funext fun m => hindex m _)
      · rw [exec_dropIndex, Option.map_map]
        exact congrArg (fun f => (o p.table).map f) (funext fun m => hindex m _)
    · exact .alter (keepsColumns_alter (by simp) fun _ => rfl)
  refine .append (.flatMap fun c _ => ?_) (.flatMap fun c _ => ?_)
  · split
    · split
      · exact .alter (keepsColumns_alter (by simp) fun _ => rfl)
      · exact .of_statements_nil rfl
    · exact .of_statements_nil rfl
  · split
    · exact hdrop c
    · split
      · exact .note (hdrop c)
      · exact .of_statements_nil rfl

-- The constraints are renamed when the table has its old names, and so are the columns.
theorem follows_steps (hrefusal : Step.refusal? p.steps = none)
    (ho : o p.table = some p.old.members) (hnames : (p.old.constraints.map (·.name.name)).Nodup) :
    watch.Follows o (Step.statements p.steps) ↔ p.Apt := by
  have hcolumn : ∀ r ∈ p.columnRenames, Step.refusal? (p.renameColumnStep r) = none := by
    refine fun r hr => Step.refusal?_eq_none_of_mem hrefusal fun step hs => ?_
    simp only [steps, columnSteps, List.mem_append]
    exact .inl (.inr (.inl (.inl (.inl (List.mem_flatMap.mpr ⟨r, hr, hs⟩)))))
  have hoptions : Step.statements p.optionSteps = [] := by
    rw [optionSteps]
    split <;> rfl
  have hfree : Step.Emits Free (p.dropColumnSteps ++ p.alterColumnSteps ++ p.addColumnSteps ++
      p.addConstraintSteps) :=
    .append (.append (.append free_dropColumnSteps free_alterColumnSteps) free_addColumnSteps)
      free_addConstraintSteps
  obtain ⟨names, hstatements, hpairs⟩ := exists_renamedColumns hcolumn
  have hsplit : Step.statements p.steps = Step.statements p.renameConstraintSteps ++
      (Step.statements p.dropConstraintSteps ++
        (names.map (fun r => .alterTable p.new.name (MemberKind.column.rename r.1 r.2)) ++
          Step.statements (p.dropColumnSteps ++ p.alterColumnSteps ++ p.addColumnSteps ++
            p.addConstraintSteps))) := by
    simp [steps, columnSteps, Step.statements_append, hoptions, ← hstatements]
  have hcolumns := Watch.execAll_of (w := watch) (o := o)
    (P := fun o : Directory => (o p.table).map Members.columns = some p.old.members.columns)
    (fun s hs o ho => (keepsColumns_constraintSteps s hs o).trans ho) (by rw [ho, Option.map_some])
  simp only [Step.statements_append, Option.map_eq_some_iff] at hcolumns
  obtain ⟨m, hm, hsame⟩ := hcolumns
  rw [hsplit, Watch.follows_append, Watch.follows_append, Watch.follows_append,
    iff_true_intro (Watch.follows_of_forall free_dropConstraintSteps), true_and,
    iff_true_intro (Watch.follows_of_forall hfree), and_true, ← Watch.execAll_append,
    follows_renames .column hm, hpairs, statements_renameConstraintSteps,
    follows_renames .constraint ho]
  simp only [MemberKind.names, hsame, List.map_map, Function.comp_def]
  rw [renamable_constraints_iff hnames, renamable_columns_iff hcolumn]
  constructor
  · rintro ⟨hfree, hold, hnew, hcolumns⟩
    exact ⟨hold, hnew, hcolumns, hfree⟩
  · intro h
    exact ⟨h.freeConstraints, h.oldColumns, h.newColumns, h.freeColumns⟩

end TablePair

end SchemaDiff.Migration
