import SchemaDiff.Proofs.Migration.Matching
import SchemaDiff.Proofs.Migration.Planned

namespace SchemaDiff

-- Adds a rule about single rows.
def Statement.AddsRowRule : Statement → Prop
  | .alterTable _ (.addConstraint c _) => c.rule.IsAboutRows
  | _ => False

-- What is planned with the mark on rules about rows, and what is planned in its place without it.
inductive Statement.Marked (mark : Bool) : Statement → Statement → Prop
  | rowRule (table : ObjectName) {c : Constraint} (h : c.rule.IsAboutRows) :
      Marked mark (.alterTable table (.addConstraint c mark))
        (.alterTable table (.addConstraint c false))
  | other {s : Statement} (h : ¬s.AddsRowRule) : Marked mark s s

-- Without the mark nothing is different.
theorem Statement.eq_of_marked {m m' : Script}
    (h : List.Forall₂ (Statement.Marked false) m m') : m = m' :=
  List.forall₂_eq_eq_eq ▸ h.imp fun _ _ hs => by cases hs <;> rfl

end SchemaDiff

namespace SchemaDiff.Migration

open Step

-- Two outcomes that are one error, or statements that are related.
inductive SameUpTo (R : Script → Script → Prop) :
    Except DiffError Script → Except DiffError Script → Prop
  | error (e : DiffError) : SameUpTo R (.error e) (.error e)
  | ok {m m' : Script} (h : R m m') : SameUpTo R (.ok m) (.ok m')

theorem SameUpTo.imp {R S : Script → Script → Prop} {r r' : Except DiffError Script}
    (h : SameUpTo R r r') (himp : ∀ m m', R m m' → S m m') : SameUpTo S r r' := by
  cases h with
  | error e => exact .error e
  | ok h => exact .ok (himp _ _ h)

namespace Step

-- Steps of a run with the mark, and of one without it.
inductive Marked (mark : Bool) : Step → Step → Prop
  | note (event : Event) : Marked mark (.note event) (.note event)
  | emitting {s s' : Statement} (h : s.Marked mark s') :
      Marked mark (.note (.emitting s)) (.note (.emitting s'))
  | emit {s s' : Statement} (h : s.Marked mark s') : Marked mark (.emit s) (.emit s')
  | refuse (r : Refusal) : Marked mark (.refuse r) (.refuse r)

variable {mark : Bool}

-- The mark makes no difference to steps that add no rule about rows.
theorem marked_same {steps : List Step} (h : Emits (¬·.AddsRowRule) steps) :
    List.Forall₂ (Marked mark) steps steps := by
  refine List.forall₂_same.mpr fun step hstep => ?_
  cases step with
  | note event => exact .note event
  | emit s => exact .emit (.other (h s (mem_statements.mpr hstep)))
  | refuse r => exact .refuse r

theorem marked_announce {s s' : Statement} (h : s.Marked mark s') :
    List.Forall₂ (Marked mark) (announce s) (announce s') :=
  .cons (.emitting h) (.cons (.emit h) .nil)

theorem refusal?_marked {steps steps' : List Step} (h : List.Forall₂ (Marked mark) steps steps') :
    Option.Rel (· = ·) (refusal? steps) (refusal? steps') := by
  refine rel_findSome? h fun step step' hstep => ?_
  cases hstep with
  | refuse r => exact .some rfl
  | _ => exact .none

theorem statements_marked {steps steps' : List Step}
    (h : List.Forall₂ (Marked mark) steps steps') :
    List.Forall₂ (Statement.Marked mark) (statements steps) (statements steps') := by
  refine List.rel_filterMap (fun step step' hstep => ?_) h
  cases hstep with
  | emit h => exact .some h
  | _ => exact .none

end Step

namespace TablePair

variable (p : TablePair)

theorem not_addsRowRule_dropConstraintSteps :
    Emits (¬·.AddsRowRule) p.dropConstraintSteps := by
  have hdrop : ∀ c, Emits (¬·.AddsRowRule) (p.dropConstraint c) := by
    intro c
    rw [TablePair.dropConstraint]
    split
    · exact .announce id
    · exact .alter id
  refine .flatMap fun old _ => ?_
  split
  · exact hdrop old
  · split
    · exact .note (hdrop old)
    · exact .of_statements_nil rfl

theorem not_addsRowRule_renameConstraintSteps :
    Emits (¬·.AddsRowRule) p.renameConstraintSteps := by
  refine .flatMap fun old _ => ?_
  split
  · split
    · exact .alter id
    · exact .of_statements_nil rfl
  · exact .of_statements_nil rfl

theorem not_addsRowRule_alterColumnStep (old new : Column) :
    Emits (¬·.AddsRowRule) (p.alterColumnStep old new) := by
  have hchange : ∀ change, Emits (¬·.AddsRowRule) (p.changeColumn new change) :=
    fun _ => .alter id
  have hdefault : Emits (¬·.AddsRowRule) (p.defaultSteps old new) := by
    rw [defaultSteps]
    split
    · exact .of_statements_nil rfl
    · exact hchange _
  rw [alterColumnStep]
  split
  · split
    · exact .alter id
    · exact hdefault
  · split
    · exact .of_statements_nil rfl
    · refine .append (.append ?_ hdefault) ?_
      · split
        · exact .of_statements_nil rfl
        · exact hchange _
      · rw [nullSteps]
        split
        · exact .of_statements_nil rfl
        · exact hchange _

theorem not_addsRowRule_columnSteps : Emits (¬·.AddsRowRule) p.columnSteps := by
  refine .append (.append (.append ?_ ?_) ?_) ?_
  · refine .flatMap fun rename _ => ?_
    rw [renameColumnStep]
    split
    · split
      · exact .of_statements_nil rfl
      · exact .alter id
    · exact .of_statements_nil rfl
  · refine .flatMap fun old _ => ?_
    split
    · exact .alter id
    · exact .of_statements_nil rfl
  · refine .flatMap fun new _ => ?_
    split
    · exact p.not_addsRowRule_alterColumnStep _ new
    · exact .of_statements_nil rfl
  · refine .flatMap fun new _ => ?_
    split
    · exact .alter id
    · exact .of_statements_nil rfl

-- The pair for a run that marks new rules about rows, or does not.
def marking (notValid : Bool) : TablePair :=
  { p with notValid }

theorem addConstraint_marked (c : Constraint) :
    List.Forall₂ (Step.Marked p.dialect.hasNotValid) ((p.marking true).addConstraint c)
      ((p.marking false).addConstraint c) := by
  have hmark : ∀ rule, c.rule = rule → rule.IsAboutRows →
      List.Forall₂ (Step.Marked p.dialect.hasNotValid)
        ((p.marking true).alter (.addConstraint c (true && p.dialect.hasNotValid)))
        ((p.marking false).alter (.addConstraint c (false && p.dialect.hasNotValid))) := by
    rintro rule rfl hrows
    rw [Bool.true_and, Bool.false_and]
    exact marked_announce (.rowRule _ hrows)
  have hother : ∀ rule, c.rule = rule → ¬rule.IsAboutRows →
      List.Forall₂ (Step.Marked p.dialect.hasNotValid)
        ((p.marking true).alter (.addConstraint c false))
        ((p.marking false).alter (.addConstraint c false)) := by
    rintro rule rfl hrows
    exact marked_announce (.other hrows)
  rw [addConstraint, addConstraint]
  cases hrule : c.rule with
  | foreignKey columns target => exact hmark _ hrule trivial
  | check body => exact hmark _ hrule trivial
  | primaryKey columns => exact hother _ hrule id
  | unique columns => exact hother _ hrule id
  | index isUnique columns => exact marked_announce (.other id)

theorem addConstraintSteps_marked :
    List.Forall₂ (Step.Marked p.dialect.hasNotValid) (p.marking true).addConstraintSteps
      (p.marking false).addConstraintSteps := by
  refine forall₂_flatMap fun new _ => ?_
  show List.Forall₂ _ (if !p.existed new || p.wasChanged new then _ else _)
    (if !p.existed new || p.wasChanged new then _ else _)
  split
  · exact p.addConstraint_marked new
  · exact .nil

-- Which constraints are dropped, renamed and added does not depend on the mark.
theorem steps_marked :
    List.Forall₂ (Step.Marked p.dialect.hasNotValid) (p.marking true).steps
      (p.marking false).steps := by
  have hoptions : Emits (¬·.AddsRowRule) p.optionSteps := by
    rw [optionSteps]
    split <;> exact .of_statements_nil rfl
  refine List.rel_append ?_ p.addConstraintSteps_marked
  exact marked_same (.append (.append (.append (.append hoptions (.of_statements_nil rfl))
    p.not_addsRowRule_renameConstraintSteps) p.not_addsRowRule_dropConstraintSteps)
    p.not_addsRowRule_columnSteps)

end TablePair

namespace SchemaPair

variable (p : SchemaPair)

def marking (notValid : Bool) : SchemaPair :=
  { p with options := { p.options with notValid } }

theorem alterSteps_marked (new : SchemaObject) :
    List.Forall₂ (Step.Marked p.dialect.hasNotValid) ((p.marking true).alterSteps new)
      ((p.marking false).alterSteps new) := by
  have hold : ∀ notValid, (p.marking notValid).old? new.key = p.old? new.key := fun _ => rfl
  unfold alterSteps
  rw [hold, hold]
  split
  · refine marked_same ?_
    split
    · exact .note (.emit id)
    · exact .of_statements_nil rfl
  · rename_i old new _
    exact (p.tablePair old new).steps_marked
  · exact .nil

theorem steps_marked :
    List.Forall₂ (Step.Marked p.dialect.hasNotValid) (p.marking true).steps
      (p.marking false).steps := by
  have hrenames : Emits (¬·.AddsRowRule) p.renames := by
    refine .flatMap fun rename _ => ?_
    split
    · exact .note (.alter id)
    · exact .of_statements_nil rfl
  have hdrops : Emits (¬·.AddsRowRule) p.drops := .map_emit fun old _ => by cases old <;> exact id
  have hcreates : Emits (¬·.AddsRowRule) p.creates :=
    .map_emit fun new _ => by cases new <;> exact id
  refine List.rel_append ?_ (forall₂_flatMap fun new _ => p.alterSteps_marked new)
  exact marked_same (.append (.append (.append (.of_statements_nil (statements_refusals p))
    hrenames) hdrops) hcreates)

end SchemaPair

theorem sameUpTo_of_steps {d : Dialect} {options options' : Options}
    {before after : Option Script} {mark : Bool}
    (h : List.Forall₂ (Step.Marked mark) (steps d options before after)
      (steps d options' before after)) :
    SameUpTo (List.Forall₂ (Statement.Marked mark)) (diff d options before after)
      (diff d options' before after) := by
  have hrefusal := refusal?_marked h
  have hstatements := statements_marked h
  unfold diff result
  generalize refusal? (steps d options before after) = r,
    refusal? (steps d options' before after) = r' at hrefusal ⊢
  generalize statements (steps d options before after) = m,
    statements (steps d options' before after) = m' at hstatements ⊢
  cases hrefusal with
  | some hr =>
      subst hr
      exact .error _
  | none =>
      cases hstatements with
      | nil => exact .error _
      | cons hfirst hrest => exact .ok (.cons hfirst hrest)

-- Where both schemas are given.
theorem diff_marked (d : Dialect) (tableRenames : List TableRename)
    (columnRenames : List ColumnRename) (before after : Script) :
    SameUpTo (List.Forall₂ (Statement.Marked d.hasNotValid))
      (diff d ⟨true, tableRenames, columnRenames⟩ (some before) (some after))
      (diff d ⟨false, tableRenames, columnRenames⟩ (some before) (some after)) := by
  refine sameUpTo_of_steps ?_
  rw [steps, steps]
  split
  · exact .nil
  · exact SchemaPair.steps_marked ⟨d, ⟨true, tableRenames, columnRenames⟩, before, after⟩

-- The option decides how the new rules about rows are added, and nothing else: not which statements
-- there are, not their order, and not whether there is a migration.
theorem diff_notValid (d : Dialect) (tableRenames : List TableRename)
    (columnRenames : List ColumnRename) (before after : Option Script) :
    SameUpTo
      (if d ∈ [.postgres, .cockroach] ∧ before.isSome ∧ after.isSome then
        List.Forall₂ (Statement.Marked true)
      else (· = ·))
      (diff d ⟨true, tableRenames, columnRenames⟩ before after)
      (diff d ⟨false, tableRenames, columnRenames⟩ before after) := by
  have hsame : ∀ {r : Except DiffError Script}, SameUpTo (· = ·) r r := fun {r} => by
    cases r with
    | error e => exact .error e
    | ok m => exact .ok rfl
  cases before with
  | none =>
      rw [if_neg (by simp)]
      cases after <;> exact hsame
  | some before =>
      cases after with
      | none =>
          rw [if_neg (by simp)]
          exact hsame
      | some after =>
          have hmarked := diff_marked d tableRenames columnRenames before after
          cases d with
          | mysql => exact hmarked.imp fun _ _ h => Statement.eq_of_marked h
          | postgres => exact hmarked
          | cockroach => exact hmarked

end SchemaDiff.Migration
