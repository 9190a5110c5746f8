import SchemaDiff.Proofs.Catalog.Identity
import SchemaDiff.Proofs.Migration.Matching

namespace SchemaDiff

open IndexState (columnsOf)
open Migration (map_eq_map_iff rel_find?)

namespace Rule

-- The columns of a key or an index.
def keyColumns : Rule → List ColumnIdent
  | primaryKey columns | foreignKey columns _ | unique columns | index _ columns => columns
  | check _ => []

-- The table and the columns that a foreign key refers to.
def referred? : Rule → Option (String × List (String × SortOrder))
  | foreignKey _ target => some (target.table.identity, columnsOf target.columns)
  | _ => none

end Rule

-- The same name, type and default, in whatever spelling. Whether a column may be null, and whether
-- it counts by itself, is left out.
structure Column.LooksLike (c c' : Column) : Prop where
  name : c.name.name = c'.name.name
  dataType : c.dataType.sql = c'.dataType.sql
  default : c.default.map Expr.identity = c'.default.map Expr.identity

-- The same column in whatever spelling.
structure Column.Alike (c c' : Column) : Prop extends c.LooksLike c' where
  notNull : c.notNull = c'.notNull
  autoIncrement : c.autoIncrement = c'.autoIncrement

-- The definition is a text without quotes, in which a comma or a parenthesis may belong to a name.
-- So the columns are told apart from it.
structure Constraint.Alike (c c' : Constraint) : Prop where
  name : c.name.name = c'.name.name
  columns : columnsOf c.rule.keyColumns = columnsOf c'.rule.keyColumns
  referred : c.rule.referred? = c'.rule.referred?
  definition : c.definition = c'.definition

-- The columns and constraints agree one by one.
structure CreateTable.AlikeBy (R : Column → Column → Prop) (t t' : CreateTable) : Prop where
  name : t.name.identity = t'.name.identity
  columns : List.Forall₂ R t.columns t'.columns
  constraints : List.Forall₂ Constraint.Alike t.constraints t'.constraints
  options : t.options.map TableOption.identity = t'.options.map TableOption.identity

-- The same name, columns, method and condition, in whatever spelling. Whether an index is unique,
-- and which table it is on, is left out.
structure CreateIndex.LooksLike (i i' : CreateIndex) : Prop where
  name : i.name.identity = i'.name.identity
  columns : columnsOf i.columns = columnsOf i'.columns
  method : (i.method.map fun m => Text.upper m.name) = i'.method.map fun m => Text.upper m.name
  predicate : i.predicate.map Expr.identity = i'.predicate.map Expr.identity

structure CreateIndex.Alike (i i' : CreateIndex) : Prop extends i.LooksLike i' where
  unique : i.unique = i'.unique
  table : i.table.identity = i'.table.identity

namespace Statement

-- Objects of one kind are compared as tables or as indexes.
inductive AlikeBy (R : Column → Column → Prop) (I : CreateIndex → CreateIndex → Prop) :
    Statement → Statement → Prop
  | createTable {t t' : CreateTable} (h : t.AlikeBy R t') :
      AlikeBy R I (.createTable t) (.createTable t')
  | createIndex {i i' : CreateIndex} (h : I i i') : AlikeBy R I (.createIndex i) (.createIndex i')

abbrev LooksLike : Statement → Statement → Prop :=
  AlikeBy Column.LooksLike CreateIndex.LooksLike

abbrev Alike : Statement → Statement → Prop :=
  AlikeBy Column.Alike CreateIndex.Alike

end Statement

namespace Column

variable {c c' : Column}

theorem Alike.identity_eq (h : c.Alike c') : c.identity = c'.identity := by
  have hdefault : ∀ k : Column, (k.default.elim "" fun e => " DEFAULT " ++ e.spelled Ident.name) =
      (k.default.map Expr.identity).elim "" (" DEFAULT " ++ ·) := by
    intro k
    cases k.default <;> rfl
  simp only [identity, spelled, hdefault, h.name, h.dataType, h.default, h.notNull,
    h.autoIncrement]

end Column

namespace Rule

-- The same rule about the same columns, whatever they are spelled like.
inductive Alike : Rule → Rule → Prop
  | primaryKey {xs ys : List ColumnIdent} (h : columnsOf xs = columnsOf ys) :
      Alike (.primaryKey xs) (.primaryKey ys)
  | foreignKey {xs ys : List ColumnIdent} {r r' : Reference} (h : columnsOf xs = columnsOf ys)
      (htable : r.table.identity = r'.table.identity)
      (hcolumns : columnsOf r.columns = columnsOf r'.columns) (hactions : r.actions = r'.actions) :
      Alike (.foreignKey xs r) (.foreignKey ys r')
  | unique {xs ys : List ColumnIdent} (h : columnsOf xs = columnsOf ys) :
      Alike (.unique xs) (.unique ys)
  | check {body body' : Expr} (h : body.identity = body'.identity) :
      Alike (.check body) (.check body')
  | index {isUnique : Bool} {xs ys : List ColumnIdent} (h : columnsOf xs = columnsOf ys) :
      Alike (.index isUnique xs) (.index isUnique ys)

variable {r r' : Rule}

theorem Alike.identity_eq (h : r.Alike r') : r.identity = r'.identity := by
  cases h with
  | primaryKey h => simp only [identity, ColumnIdent.listSpelled_congr h]
  | foreignKey h htable hcolumns hactions =>
      simp only [identity, Reference.identity, ColumnIdent.listSpelled_congr h, htable,
        ColumnIdent.listSpelled_congr hcolumns, hactions]
  | unique h => simp only [identity, ColumnIdent.listSpelled_congr h]
  | check h => simp only [identity, h]
  | index h => simp only [identity, ColumnIdent.listSpelled_congr h]

theorem Alike.isIndex_eq (h : r.Alike r') : r.isIndex = r'.isIndex := by
  cases h <;> rfl

def initial : Rule → Char
  | primaryKey _ => 'P'
  | foreignKey _ _ => 'F'
  | unique _ | index true _ => 'U'
  | check _ => 'C'
  | index false _ => 'I'

theorem head?_identity (r : Rule) : r.identity.toList.head? = some r.initial := by
  cases r with
  | index isUnique columns => cases isUnique <;> simp [identity, indexKind, initial]
  | _ => simp [identity, initial]

-- The first letter of a definition, and whether it is that of an index, tell the kind of the rule.
-- With the columns known, what is left of the text tells the rest.
theorem Alike.of_identity (h : r.identity = r'.identity)
    (hcolumns : columnsOf r.keyColumns = columnsOf r'.keyColumns)
    (hreferred : r.referred? = r'.referred?) : r.Alike r' := by
  have hinitial : r.initial = r'.initial := by
    rw [← Option.some.injEq, ← head?_identity, ← head?_identity, h]
  have hindex : r.isIndex = r'.isIndex := isIndex_of_identity h
  cases r with
  | primaryKey xs =>
      cases r' with
      | primaryKey ys => exact .primaryKey hcolumns
      | index isUnique ys => cases hindex
      | _ => cases hinitial
  | foreignKey xs target =>
      cases r' with
      | foreignKey ys target' =>
          obtain ⟨htable, htarget⟩ := Prod.mk.inj (Option.some.inj hreferred)
          have hkey : ColumnIdent.listSpelled Ident.name xs =
              ColumnIdent.listSpelled Ident.name ys := ColumnIdent.listSpelled_congr hcolumns
          refine .foreignKey hcolumns htable htarget ?_
          simpa [identity, Reference.identity, hkey, htable,
            ColumnIdent.listSpelled_congr htarget] using h
      | index isUnique ys => cases hindex
      | _ => cases hinitial
  | unique xs =>
      cases r' with
      | unique ys => exact .unique hcolumns
      | index isUnique ys => cases hindex
      | _ => cases hinitial
  | check body =>
      cases r' with
      | check body' => exact .check (by simpa [identity] using h)
      | index isUnique ys => cases hindex
      | _ => cases hinitial
  | index isUnique xs =>
      cases r' with
      | index isUnique' ys =>
          cases isUnique <;> cases isUnique' <;> first | exact .index hcolumns | cases hinitial
      | _ => cases hindex

end Rule

namespace Constraint

-- The same name for the same rule.
structure Matches (c c' : Constraint) : Prop where
  name : c.name.name = c'.name.name
  rule : c.rule.Alike c'.rule

variable {c c' : Constraint}

theorem Alike.matches (h : c.Alike c') : c.Matches c' where
  name := h.name
  rule := .of_identity h.definition h.columns h.referred

theorem Matches.definition_eq (h : c.Matches c') : c.definition = c'.definition :=
  h.rule.identity_eq

theorem Matches.identity_eq (h : c.Matches c') : c.identity = c'.identity := by
  rw [identity, identity, h.name, h.definition_eq]

theorem Matches.isIndex_eq (h : c.Matches c') : c.isIndex = c'.isIndex :=
  h.rule.isIndex_eq

end Constraint

theorem CreateTable.AlikeBy.identity_eq {t t' : CreateTable} (h : t.AlikeBy Column.Alike t') :
    t.identity = t'.identity := by
  have hcolumns := map_eq_map_iff.mpr (h.columns.imp fun _ _ hc => hc.identity_eq)
  have hconstraints := map_eq_map_iff.mpr (h.constraints.imp fun _ _ hc => hc.matches.identity_eq)
  delta identity
  simp only [h.name, hcolumns, hconstraints, h.options]

theorem CreateTable.AlikeBy.column? {t t' : CreateTable} (h : t.AlikeBy Column.Alike t')
    (name : String) : Option.Rel Column.Alike (t.column? name) (t'.column? name) :=
  rel_find? h.columns fun _ _ hc => by rw [hc.name]

theorem CreateIndex.Alike.identity_eq {i i' : CreateIndex} (h : i.Alike i') :
    i.identity = i'.identity := by
  refine identity_eq_of_state h.name ?_
  simp only [IndexState.of, h.table, h.unique, h.method, h.columns, h.predicate]

theorem Statement.Alike.identity_eq {s s' : Statement} (h : s.Alike s') :
    s.identity = s'.identity := by
  cases h with
  | createTable h => exact h.identity_eq
  | createIndex h => exact h.identity_eq

theorem Script.identity_eq {s s' : Script} (h : List.Forall₂ Statement.Alike s s') :
    s.identity = s'.identity := by
  simp only [identity, map_eq_map_iff.mpr (h.imp fun _ _ hs => Statement.Alike.identity_eq hs)]

-- The form of a change of a table.
inductive ChangeKind
  | renameTable | renameColumn | renameConstraint
  | addColumn | dropColumn | modifyColumn
  | setDataType | setDefault | dropDefault | setNotNull | dropNotNull
  | addConstraint | dropConstraint
deriving DecidableEq, Repr

def TableChange.kind : TableChange → ChangeKind
  | renameTable _ => .renameTable
  | renameColumn _ _ => .renameColumn
  | renameConstraint _ _ => .renameConstraint
  | addColumn _ => .addColumn
  | dropColumn _ => .dropColumn
  | alterColumn _ (.setDataType _) => .setDataType
  | alterColumn _ (.setDefault _) => .setDefault
  | alterColumn _ .dropDefault => .dropDefault
  | alterColumn _ .setNotNull => .setNotNull
  | alterColumn _ .dropNotNull => .dropNotNull
  | modifyColumn _ => .modifyColumn
  | addConstraint _ _ => .addConstraint
  | dropConstraint _ => .dropConstraint

namespace ColumnChange

inductive Alike : ColumnChange → ColumnChange → Prop
  | setDataType {t t' : DataType} (h : t.sql = t'.sql) : Alike (.setDataType t) (.setDataType t')
  | setDefault {e e' : Expr} (h : e.identity = e'.identity) :
      Alike (.setDefault e) (.setDefault e')
  | dropDefault : Alike .dropDefault .dropDefault
  | setNotNull : Alike .setNotNull .setNotNull
  | dropNotNull : Alike .dropNotNull .dropNotNull

theorem Alike.spelled_eq {change change' : ColumnChange} (h : change.Alike change') :
    change.spelled Ident.name = change'.spelled Ident.name := by
  cases h with
  | setDataType h => exact congrArg ("SET DATA TYPE " ++ ·) h
  | setDefault h => exact congrArg ("SET DEFAULT " ++ ·) h
  | _ => rfl

end ColumnChange

namespace TableChange

-- The same change of names, columns and constraints that are alike.
inductive Alike : TableChange → TableChange → Prop
  | renameTable {new new' : Ident} (h : new.name = new'.name) :
      Alike (.renameTable new) (.renameTable new')
  | renameColumn {old old' new new' : Ident} (hold : old.name = old'.name)
      (hnew : new.name = new'.name) : Alike (.renameColumn old new) (.renameColumn old' new')
  | renameConstraint {old old' new new' : Ident} (hold : old.name = old'.name)
      (hnew : new.name = new'.name) :
      Alike (.renameConstraint old new) (.renameConstraint old' new')
  | addColumn {c c' : Column} (h : c.Alike c') : Alike (.addColumn c) (.addColumn c')
  | dropColumn {name name' : Ident} (h : name.name = name'.name) :
      Alike (.dropColumn name) (.dropColumn name')
  | alterColumn {name name' : Ident} {change change' : ColumnChange}
      (hname : name.name = name'.name) (h : change.Alike change') :
      Alike (.alterColumn name change) (.alterColumn name' change')
  | modifyColumn {c c' : Column} (h : c.Alike c') : Alike (.modifyColumn c) (.modifyColumn c')
  | addConstraint {c c' : Constraint} (h : c.Matches c') (notValid : Bool) :
      Alike (.addConstraint c notValid) (.addConstraint c' notValid)
  | dropConstraint {name name' : Ident} (h : name.name = name'.name) :
      Alike (.dropConstraint name) (.dropConstraint name')

variable {change change' : TableChange}

theorem Alike.kind_eq (h : change.Alike change') : change.kind = change'.kind := by
  cases h with
  | alterColumn _ h => cases h <;> rfl
  | _ => rfl

theorem Alike.identity_eq (h : change.Alike change') : change.identity = change'.identity := by
  cases h with
  | renameTable h => exact congrArg ("RENAME TO " ++ ·) h
  | renameColumn hold hnew =>
      exact congrArg₂ (fun old new => "RENAME COLUMN " ++ old ++ " TO " ++ new) hold hnew
  | renameConstraint hold hnew =>
      exact congrArg₂ (fun old new => "RENAME CONSTRAINT " ++ old ++ " TO " ++ new) hold hnew
  | addColumn h => exact congrArg ("ADD COLUMN " ++ ·) h.identity_eq
  | dropColumn h => exact congrArg ("DROP COLUMN " ++ ·) h
  | alterColumn hname h =>
      exact congrArg₂ (fun name change => "ALTER COLUMN " ++ name ++ " " ++ change) hname
        h.spelled_eq
  | modifyColumn h => exact congrArg ("MODIFY COLUMN " ++ ·) h.identity_eq
  | addConstraint h notValid =>
      exact congrArg (fun added => "ADD " ++ (added ++ " NOT VALID=" ++
        if notValid then "true" else "false")) h.identity_eq
  | dropConstraint h => exact congrArg ("DROP CONSTRAINT " ++ ·) h

end TableChange

inductive StatementKind
  | createTable | dropTable | alterTable (change : ChangeKind) | createIndex | dropIndex
deriving DecidableEq, Repr

def Statement.kind : Statement → StatementKind
  | createTable _ => .createTable
  | dropTable _ _ => .dropTable
  | alterTable _ change => .alterTable change.kind
  | createIndex _ => .createIndex
  | dropIndex _ _ _ => .dropIndex

end SchemaDiff
