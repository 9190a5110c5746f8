import SchemaDiff.Proofs.Migration.Alike
import SchemaDiff.Proofs.Migration.Hints

namespace SchemaDiff.Migration

open IndexState (columnsOf)

section Renames

variable {d : Dialect}

theorem renameTable_congr (renames : List TableRename) {t t' : ObjectName}
    (h : t.identity = t'.identity) :
    (renameTable d renames t).identity = (renameTable d renames t').identity := by
  rw [identity_renameTable, identity_renameTable, h]

theorem renameColumn_congr (renames : List ColumnRename) {c c' : Ident} (h : c.name = c'.name) :
    (renameColumn d renames c).name = (renameColumn d renames c').name := by
  unfold renameColumn
  rw [h]
  split
  · rfl
  · exact h

theorem renameColumns_congr (renames : List ColumnRename) {xs ys : List ColumnIdent}
    (h : columnsOf xs = columnsOf ys) :
    columnsOf (renameColumns d renames xs) = columnsOf (renameColumns d renames ys) := by
  rw [columnsOf, columnsOf, map_eq_map_iff] at h
  rw [columnsOf, columnsOf, renameColumns, renameColumns, List.map_map, List.map_map,
    map_eq_map_iff]
  refine h.imp fun x y hxy => ?_
  obtain ⟨hname, horder⟩ := Prod.mk.inj hxy
  exact Prod.ext (renameColumn_congr renames hname) horder

end Renames

namespace Step

-- Steps that differ in nothing but how names are written. Any two reports are alike, since no
-- statement depends on them.
inductive Alike : Step → Step → Prop
  | note (event event' : Event) : Alike (.note event) (.note event')
  | emit {s s' : Statement} (hkind : s.kind = s'.kind) (hidentity : s.identity = s'.identity) :
      Alike (.emit s) (.emit s')
  | refuse {r r' : Refusal} (h : r.reason = r'.reason) : Alike (.refuse r) (.refuse r')

theorem Alike.refl (step : Step) : step.Alike step := by
  cases step with
  | note event => exact .note event event
  | emit s => exact .emit rfl rfl
  | refuse r => exact .refuse rfl

theorem announce_alike {s s' : Statement} (hkind : s.kind = s'.kind)
    (hidentity : s.identity = s'.identity) : List.Forall₂ Alike (announce s) (announce s') :=
  .cons (.note _ _) (.cons (.emit hkind hidentity) .nil)

theorem alter_alike {t t' : ObjectName} {change change' : TableChange}
    (hname : t.identity = t'.identity) (h : change.Alike change') :
    List.Forall₂ Alike (alter t change) (alter t' change') := by
  refine announce_alike (congrArg StatementKind.alterTable h.kind_eq) ?_
  rw [Statement.identity, Statement.identity, hname, h.identity_eq]

theorem refuse_alike {r r' : Refusal} (h : r.reason = r'.reason) :
    List.Forall₂ Alike [refuse r] [refuse r'] :=
  .cons (.refuse h) .nil

end Step

-- Identifiers are compared with their quotes where the run looks for the constraint that it has at
-- hand. Where names are told apart this finds no other constraint than a comparison of names would,
-- and so it finds partners of each other.
theorem name_beq_of_paired {xs ys : List Constraint} {x x' y y' : Constraint}
    (h : List.Forall₂ Constraint.Matches xs ys) (hnames : (xs.map (·.name.name)).Nodup)
    (hxy : Paired Constraint.Matches xs ys x y) (hxy' : Paired Constraint.Matches xs ys x' y') :
    (x.name == x'.name) = (y.name == y'.name) := by
  have hequal : xs.map (·.name.name) = ys.map (·.name.name) :=
    map_eq_map_iff.mpr (h.imp fun _ _ hc => hc.name)
  have hone : ∀ {zs : List Constraint} {z z' : Constraint}, (zs.map (·.name.name)).Nodup →
      z ∈ zs → z' ∈ zs → (z.name = z'.name ↔ z.name.name = z'.name.name) := by
    intro zs z z' hnodup hz hz'
    refine ⟨congrArg Ident.name, fun heq => ?_⟩
    rw [List.inj_on_of_nodup_map hnodup hz hz' heq]
  rw [Bool.eq_iff_iff, beq_iff_eq, beq_iff_eq, hone hnames hxy.left hxy'.left,
    hone (hequal ▸ hnames) hxy.right hxy'.right, hxy.rel.name, hxy'.rel.name]

namespace TablePair

-- Two runs over one table in different spellings. Constraints are told apart by their names, in
-- the first spelling and then in the other as well.
structure Alike (p q : TablePair) : Prop where
  dialect : p.dialect = q.dialect
  notValid : p.notValid = q.notValid
  renamedFrom : p.renamedFrom = q.renamedFrom
  columnRenames : p.columnRenames = q.columnRenames
  tableRenames : p.tableRenames = q.tableRenames
  old : p.old.AlikeBy Column.Alike q.old
  new : p.new.AlikeBy Column.Alike q.new
  oldNames : (p.old.constraints.map (·.name.name)).Nodup
  newNames : (p.new.constraints.map (·.name.name)).Nodup

namespace Alike

variable {p q : TablePair} (h : p.Alike q)
include h

theorem optionSteps : List.Forall₂ Step.Alike p.optionSteps q.optionSteps := by
  rw [TablePair.optionSteps, TablePair.optionSteps, h.old.options, h.new.options]
  split
  · exact .nil
  · exact Step.refuse_alike rfl

theorem renamedColumns {xs ys : List ColumnIdent} (hxy : columnsOf xs = columnsOf ys) :
    columnsOf (renameColumns p.dialect p.columnRenames xs) =
      columnsOf (renameColumns q.dialect q.columnRenames ys) := by
  rw [h.dialect, h.columnRenames]
  exact renameColumns_congr _ hxy

theorem renameRule {r r' : Rule} (hr : r.Alike r') :
    (p.renameRule r).Alike (q.renameRule r') := by
  cases hr with
  | primaryKey hr => exact .primaryKey (h.renamedColumns hr)
  | @foreignKey xs ys r r' hr htable hcolumns hactions =>
      have htable' : (p.renameReference r).table.identity =
          (q.renameReference r').table.identity := by
        simp only [renameReference, h.dialect, h.tableRenames]
        exact renameTable_congr _ htable
      refine .foreignKey (h.renamedColumns hr) htable' ?_ hactions
      -- Either both references are to the table itself, or none is.
      simp only [renameReference] at htable' ⊢
      rw [htable', h.new.name]
      split
      · exact h.renamedColumns hcolumns
      · exact hcolumns
  | unique hr => exact .unique (h.renamedColumns hr)
  | check hr => exact .check hr
  | index hr => exact .index (h.renamedColumns hr)

theorem oldConstraints : List.Forall₂ Constraint.Matches p.oldConstraints q.oldConstraints := by
  rw [TablePair.oldConstraints, TablePair.oldConstraints, List.forall₂_map_left_iff,
    List.forall₂_map_right_iff]
  exact h.old.constraints.imp fun c c' hc => ⟨hc.name, h.renameRule hc.matches.rule⟩

theorem newConstraints : List.Forall₂ Constraint.Matches p.new.constraints q.new.constraints :=
  h.new.constraints.imp fun _ _ hc => hc.matches

theorem oldColumns : List.Forall₂ Column.Alike p.oldColumns q.oldColumns := by
  rw [TablePair.oldColumns, TablePair.oldColumns, List.forall₂_map_left_iff,
    List.forall₂_map_right_iff]
  refine h.old.columns.imp fun c c' hc => { hc with name := ?_ }
  rw [h.dialect, h.columnRenames]
  exact renameColumn_congr _ hc.name

theorem oldConstraintNames : (p.oldConstraints.map (·.name.name)).Nodup := by
  have hnames : p.oldConstraints.map (·.name.name) = p.old.constraints.map (·.name.name) := by
    rw [TablePair.oldConstraints, List.map_map]
    rfl
  exact hnames ▸ h.oldNames

end Alike

-- Constraints that stand at the same place of the old tables, or of the new ones.
abbrev OldTwins (p q : TablePair) : Constraint → Constraint → Prop :=
  Paired Constraint.Matches p.oldConstraints q.oldConstraints

abbrev NewTwins (p q : TablePair) : Constraint → Constraint → Prop :=
  Paired Constraint.Matches p.new.constraints q.new.constraints

namespace Alike

variable {p q : TablePair} (h : p.Alike q)
include h

theorem constraint? (name : String) :
    Option.Rel (NewTwins p q) (p.new.constraint? name) (q.new.constraint? name) :=
  rel_find? (forall₂_paired h.newConstraints) fun _ _ hc => by rw [hc.rel.name]

theorem movedName?_eq (name : String) : p.movedName? name = q.movedName? name := by
  simp only [movedName?, h.renamedFrom, h.new.name]

theorem moved? {c c' : Constraint} (hc : c.Matches c') :
    Option.Rel (NewTwins p q) (p.moved? c) (q.moved? c') := by
  simp only [TablePair.moved?, hc.name, h.movedName?_eq, Option.bind_eq_bind]
  cases q.movedName? c'.name.name with
  | none => exact .none
  | some name =>
      rw [Option.bind_some, Option.bind_some, isSome_eq_of_rel (h.constraint? c'.name.name)]
      split
      · exact .none
      · have hfound := h.constraint? name
        generalize p.new.constraint? name = o, q.new.constraint? name = o' at hfound ⊢
        cases hfound with
        | none => exact .none
        | some hnew =>
            rw [Option.bind_some, Option.bind_some, hnew.rel.definition_eq, hc.definition_eq]
            split
            · exact .some hnew
            · exact .none

theorem canRename_eq {c c' : Constraint} (hc : c.Matches c') : p.canRename c = q.canRename c' := by
  rw [canRename, canRename, hc.isIndex_eq, h.dialect]

theorem alter {change change' : TableChange} (hchange : change.Alike change') :
    List.Forall₂ Step.Alike (p.alter change) (q.alter change') :=
  Step.alter_alike h.new.name hchange

theorem renameConstraintSteps :
    List.Forall₂ Step.Alike p.renameConstraintSteps q.renameConstraintSteps := by
  refine List.rel_flatMap h.oldConstraints fun c c' hc => ?_
  have hmoved := h.moved? hc
  generalize p.moved? c = o, q.moved? c' = o' at hmoved ⊢
  cases hmoved with
  | none => exact .nil
  | some hnew =>
      simp only [h.canRename_eq hc]
      split
      · exact h.alter (.renameConstraint hc.name hnew.rel.name)
      · exact .cons (.note _ _) .nil

theorem renamedConstraints : List.Forall₂
    (fun r r' => p.OldTwins q r.old r'.old ∧ p.NewTwins q r.new r'.new)
    p.renamedConstraints q.renamedConstraints := by
  refine List.rel_filterMap (fun c c' hc => ?_) (forall₂_paired h.oldConstraints)
  rw [h.canRename_eq hc.rel]
  split
  · have hmoved := h.moved? hc.rel
    generalize p.moved? c = o, q.moved? c' = o' at hmoved ⊢
    cases hmoved with
    | none => exact .none
    | some hnew => exact .some ⟨hc, hnew⟩
  · exact .none

theorem counterpart? {c c' : Constraint} (hc : p.OldTwins q c c') :
    Option.Rel (NewTwins p q) (p.counterpart? c) (q.counterpart? c') := by
  have hrenamed := rel_find? h.renamedConstraints (f := (·.old.name == c.name))
    (g := (·.old.name == c'.name)) fun r r' hr =>
      name_beq_of_paired h.oldConstraints h.oldConstraintNames hr.1 hc
  rw [TablePair.counterpart?, TablePair.counterpart?, hc.rel.name]
  generalize p.renamedConstraints.find? _ = o, q.renamedConstraints.find? _ = o' at hrenamed ⊢
  cases hrenamed with
  | none => exact h.constraint? _
  | some hr => exact .some hr.2

theorem changed? {c c' : Constraint} (hc : p.OldTwins q c c') :
    Option.Rel (NewTwins p q) (p.changed? c) (q.changed? c') := by
  have hcounterpart := h.counterpart? hc
  rw [TablePair.changed?, TablePair.changed?]
  generalize p.counterpart? c = o, q.counterpart? c' = o' at hcounterpart ⊢
  cases hcounterpart with
  | none => exact .none
  | some hnew =>
      rw [Option.filter_some, Option.filter_some, hnew.rel.definition_eq, hc.rel.definition_eq]
      split
      · exact .some hnew
      · exact .none

theorem dropConstraint {c c' : Constraint} (hc : c.Matches c') :
    List.Forall₂ Step.Alike (p.dropConstraint c) (q.dropConstraint c') := by
  rw [TablePair.dropConstraint, TablePair.dropConstraint, hc.isIndex_eq]
  split
  · exact Step.announce_alike rfl (congrArg ("DROP INDEX " ++ ·) hc.name)
  · exact h.alter (.dropConstraint hc.name)

theorem dropConstraintSteps :
    List.Forall₂ Step.Alike p.dropConstraintSteps q.dropConstraintSteps := by
  refine List.rel_flatMap (forall₂_paired h.oldConstraints) fun c c' hc => ?_
  rw [isNone_eq_of_rel (h.counterpart? hc), isSome_eq_of_rel (h.changed? hc)]
  split
  · exact h.dropConstraint hc.rel
  · split
    · exact .cons (.note _ _) (h.dropConstraint hc.rel)
    · exact .nil

theorem addConstraint {c c' : Constraint} (hc : c.Matches c') :
    List.Forall₂ Step.Alike (p.addConstraint c) (q.addConstraint c') := by
  obtain ⟨name, rule⟩ := c
  obtain ⟨name', rule'⟩ := c'
  have hadd : ∀ notValid, List.Forall₂ Step.Alike (p.alter (.addConstraint ⟨name, rule⟩ notValid))
      (q.alter (.addConstraint ⟨name', rule'⟩ notValid)) :=
    fun notValid => h.alter (.addConstraint hc notValid)
  have hvalid := hadd (p.notValid && p.dialect.hasNotValid)
  nth_rewrite 2 [h.notValid, h.dialect] at hvalid
  cases hc.rule with
  | primaryKey => exact hadd false
  | unique => exact hadd false
  | foreignKey => exact hvalid
  | check => exact hvalid
  | index hcolumns =>
      refine Step.announce_alike rfl (CreateIndex.Alike.identity_eq ?_)
      exact ⟨⟨hc.name, hcolumns, rfl, rfl⟩, rfl, h.new.name⟩

theorem existed_eq {c c' : Constraint} (hc : p.NewTwins q c c') : p.existed c = q.existed c' := by
  rw [existed, existed]
  congr 1
  · refine any_eq_of_forall₂ h.oldConstraints fun k k' hk => ?_
    rw [hk.name, hc.rel.name]
  · exact any_eq_of_forall₂ h.renamedConstraints fun r r' hr =>
      name_beq_of_paired h.newConstraints h.newNames hr.2 hc

theorem wasChanged_eq {c c' : Constraint} (hc : p.NewTwins q c c') :
    p.wasChanged c = q.wasChanged c' :=
  any_eq_of_forall₂
    (List.rel_filterMap (fun _ _ hk => h.changed? hk) (forall₂_paired h.oldConstraints))
    fun _ _ hk => name_beq_of_paired h.newConstraints h.newNames hk hc

theorem addConstraintSteps :
    List.Forall₂ Step.Alike p.addConstraintSteps q.addConstraintSteps := by
  refine List.rel_flatMap (forall₂_paired h.newConstraints) fun c c' hc => ?_
  rw [h.existed_eq hc, h.wasChanged_eq hc]
  split
  · exact h.addConstraint hc.rel
  · exact .nil

theorem oldColumn? (name : String) :
    Option.Rel Column.Alike (p.oldColumn? name) (q.oldColumn? name) :=
  rel_find? h.oldColumns fun _ _ hc => by rw [hc.name]

theorem renameColumnStep (rename : ColumnRename) :
    List.Forall₂ Step.Alike (p.renameColumnStep rename) (q.renameColumnStep rename) := by
  have hold := h.old.column? rename.old
  have hnew := h.new.column? rename.new
  rw [TablePair.renameColumnStep, TablePair.renameColumnStep,
    isSome_eq_of_rel (h.new.column? rename.old)]
  generalize p.old.column? rename.old = o, q.old.column? rename.old = o' at hold ⊢
  generalize p.new.column? rename.new = n, q.new.column? rename.new = n' at hnew ⊢
  cases hold with
  | none => exact Step.refuse_alike rfl
  | some hold =>
      cases hnew with
      | none => exact Step.refuse_alike rfl
      | some hnew =>
          dsimp only
          split
          · exact Step.refuse_alike rfl
          · exact h.alter (.renameColumn hold.name hnew.name)

theorem dropColumnSteps : List.Forall₂ Step.Alike p.dropColumnSteps q.dropColumnSteps := by
  refine List.rel_flatMap h.oldColumns fun c c' hc => ?_
  rw [isNone_eq_of_rel (h.new.column? c.name.name), hc.name]
  split
  · exact h.alter (.dropColumn hc.name)
  · exact .nil

theorem addColumnSteps : List.Forall₂ Step.Alike p.addColumnSteps q.addColumnSteps := by
  refine List.rel_flatMap h.new.columns fun c c' hc => ?_
  rw [isNone_eq_of_rel (h.oldColumn? c.name.name), hc.name]
  split
  · exact h.alter (.addColumn hc)
  · exact .nil

section Columns

variable {old old' new new' : Column} (hold : old.Alike old') (hnew : new.Alike new')
include hold hnew

theorem defaultSteps :
    List.Forall₂ Step.Alike (p.defaultSteps old new) (q.defaultSteps old' new') := by
  have hdefault := hnew.default
  rw [TablePair.defaultSteps, TablePair.defaultSteps, hold.default, hnew.default]
  split
  · exact .nil
  · refine h.alter (.alterColumn hnew.name ?_)
    cases hd : new.default <;> cases hd' : new'.default <;>
      simp only [hd, hd', Option.map_none, Option.map_some, reduceCtorEq, Option.some.injEq]
        at hdefault
    · exact .dropDefault
    · exact .setDefault hdefault

theorem nullSteps :
    List.Forall₂ Step.Alike (p.nullSteps old new) (q.nullSteps old' new') := by
  rw [TablePair.nullSteps, TablePair.nullSteps, hold.notNull, hnew.notNull]
  split
  · exact .nil
  · refine h.alter (.alterColumn hnew.name ?_)
    split
    · exact .setNotNull
    · exact .dropNotNull

theorem alterColumnStep :
    List.Forall₂ Step.Alike (p.alterColumnStep old new) (q.alterColumnStep old' new') := by
  have hdefault := h.defaultSteps hold hnew
  rw [TablePair.alterColumnStep, TablePair.alterColumnStep, needsModify, needsModify, h.dialect,
    hold.dataType, hold.notNull, hold.autoIncrement, hnew.dataType, hnew.notNull,
    hnew.autoIncrement]
  split
  · split
    · exact h.alter (.modifyColumn hnew)
    · exact hdefault
  · split
    · exact Step.refuse_alike rfl
    · refine List.rel_append (List.rel_append ?_ hdefault) (h.nullSteps hold hnew)
      split
      · exact .nil
      · exact h.alter (.alterColumn hnew.name (.setDataType hnew.dataType))

end Columns

theorem alterColumnSteps : List.Forall₂ Step.Alike p.alterColumnSteps q.alterColumnSteps := by
  refine List.rel_flatMap h.new.columns fun c c' hc => ?_
  have hold := h.oldColumn? c.name.name
  rw [← hc.name]
  generalize p.oldColumn? c.name.name = o, q.oldColumn? c.name.name = o' at hold ⊢
  cases hold with
  | none => exact .nil
  | some hold => exact h.alterColumnStep hold hc

theorem columnSteps : List.Forall₂ Step.Alike p.columnSteps q.columnSteps := by
  rw [TablePair.columnSteps, TablePair.columnSteps, ← h.columnRenames]
  have hrenames := forall₂_flatMap fun rename (_ : rename ∈ p.columnRenames) =>
    h.renameColumnStep rename
  exact List.rel_append (List.rel_append (List.rel_append hrenames h.dropColumnSteps)
    h.alterColumnSteps) h.addColumnSteps

theorem steps : List.Forall₂ Step.Alike p.steps q.steps := by
  have hcomparing : List.Forall₂ Step.Alike [.note (.comparingTable p.new.name)]
      [.note (.comparingTable q.new.name)] := .cons (.note _ _) .nil
  exact List.rel_append (List.rel_append (List.rel_append (List.rel_append (List.rel_append
    h.optionSteps hcomparing) h.renameConstraintSteps) h.dropConstraintSteps) h.columnSteps)
    h.addConstraintSteps

end Alike

end TablePair

end SchemaDiff.Migration
