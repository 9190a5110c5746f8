import SchemaDiff.Proofs.Statement

namespace SchemaDiff

open SchemaDiff.Parser

variable {d : Dialect}

-- The parts of a tree, wherever they stand in it.

namespace Rule

def exprs : Rule → List Expr
  | check body => [body]
  | _ => []

-- The columns of the table that the rule is about.
def columns? : Rule → Option (List ColumnIdent)
  | primaryKey columns | foreignKey columns _ | unique columns | index _ columns => some columns
  | check _ => none

def references : Rule → List Reference
  | foreignKey _ target => [target]
  | _ => []

end Rule

def ColumnChange.exprs : ColumnChange → List Expr
  | setDefault value => [value]
  | _ => []

def ColumnChange.dataTypes : ColumnChange → List DataType
  | setDataType dataType => [dataType]
  | _ => []

namespace TableChange

def columns : TableChange → List Column
  | addColumn column | modifyColumn column => [column]
  | _ => []

def constraints : TableChange → List Constraint
  | addConstraint constraint _ => [constraint]
  | _ => []

def columnChanges : TableChange → List ColumnChange
  | alterColumn _ change => [change]
  | _ => []

-- The names of what the change is about, as far as it does not define it.
def names : TableChange → List Ident
  | renameTable new => [new]
  | renameColumn old new | renameConstraint old new => [old, new]
  | dropColumn name | dropConstraint name | alterColumn name _ => [name]
  | addColumn _ | modifyColumn _ | addConstraint _ _ => []

end TableChange

def ObjectName.idents (n : ObjectName) : List Ident :=
  n.schema.toList ++ [n.name]

namespace Statement

def columns : Statement → List Column
  | createTable t => t.columns
  | alterTable _ change => change.columns
  | _ => []

def constraints : Statement → List Constraint
  | createTable t => t.constraints
  | alterTable _ change => change.constraints
  | _ => []

def columnChanges : Statement → List ColumnChange
  | alterTable _ change => change.columnChanges
  | _ => []

def indexes : Statement → List CreateIndex
  | createIndex i => [i]
  | _ => []

def changedNames : Statement → List Ident
  | alterTable _ change => change.names
  | _ => []

-- The tables and indexes that the statement itself is about.
def objects : Statement → List ObjectName
  | createTable t => [t.name]
  | dropTable _ name | alterTable name _ => [name]
  | createIndex i => [i.name, i.table]
  | dropIndex _ name table => name :: table.toList

def references (s : Statement) : List Reference :=
  s.constraints.flatMap (·.rule.references)

def dataTypes (s : Statement) : List DataType :=
  s.columns.map Column.dataType ++ s.columnChanges.flatMap ColumnChange.dataTypes

-- The lists of columns of primary keys, foreign keys, unique constraints and indexes.
def columnLists (s : Statement) : List (List ColumnIdent) :=
  s.constraints.filterMap (·.rule.columns?) ++ s.indexes.map CreateIndex.columns

-- The bodies of all defaults, checks and index predicates.
def exprs (s : Statement) : List Expr :=
  s.columns.flatMap (·.default.toList) ++ s.constraints.flatMap (·.rule.exprs) ++
    s.columnChanges.flatMap ColumnChange.exprs ++ s.indexes.flatMap (·.predicate.toList)

-- The bodies that are only accepted with what closes them: a check stands in parentheses of its own,
-- and so does the default of a column in the body of its table.
def enclosed : Statement → List Expr
  | createTable t => t.columns.flatMap (·.default.toList) ++ t.constraints.flatMap (·.rule.exprs)
  | s => s.constraints.flatMap (·.rule.exprs)

def idents (s : Statement) : List Ident :=
  s.objects.flatMap ObjectName.idents ++ s.changedNames ++ s.columns.map Column.name ++
    s.constraints.map Constraint.name ++ s.columnLists.flatten.map ColumnIdent.ident ++
    s.references.flatMap (fun r => r.table.idents ++ r.columns.map ColumnIdent.ident) ++
    s.dataTypes.flatMap DataType.params ++ s.exprs.flatMap Expr.tokens ++
    s.indexes.flatMap (·.method.toList) ++ s.options.map TableOption.value

variable {s : Statement}

theorem Gathered.indexes (h : s.Gathered d) : ∀ i ∈ s.indexes, i.Readable d := by
  intro i hi
  cases s with
  | createIndex index =>
      obtain rfl := List.mem_singleton.mp hi
      exact h
  | _ => cases hi

theorem Gathered.columns (h : s.Gathered d) : ∀ c ∈ s.columns, c.Gathered d := by
  intro c hc
  cases s with
  | createTable t => exact (CreateTable.Readable.columns h c hc).gathered
  | alterTable name change =>
      have hchange := h.2
      cases change with
      | addColumn column =>
          obtain rfl := List.mem_singleton.mp hc
          exact hchange
      | modifyColumn column =>
          obtain rfl := List.mem_singleton.mp hc
          exact hchange.1
      | _ => cases hc
  | _ => cases hc

theorem Gathered.constraints (h : s.Gathered d) : ∀ c ∈ s.constraints, c.Readable d := by
  intro c hc
  cases s with
  | createTable t => exact CreateTable.Readable.constraints h c hc
  | alterTable name change =>
      have hchange := h.2
      cases change with
      | addConstraint constraint notValid =>
          obtain rfl := List.mem_singleton.mp hc
          exact hchange.1
      | _ => cases hc
  | _ => cases hc

theorem Gathered.columnChanges (h : s.Gathered d) : ∀ c ∈ s.columnChanges, c.Readable d := by
  intro c hc
  cases s with
  | alterTable name change =>
      have hchange := h.2
      cases change with
      | alterColumn name change =>
          obtain rfl := List.mem_singleton.mp hc
          exact hchange.2
      | _ => cases hc
  | _ => cases hc

theorem Gathered.dataTypes (h : s.Gathered d) : ∀ t ∈ s.dataTypes, t.Readable d := by
  intro t ht
  rcases List.mem_append.mp ht with ht | ht
  · obtain ⟨c, hc, rfl⟩ := List.mem_map.mp ht
    exact (h.columns c hc).dataType
  · obtain ⟨change, hchange, hmem⟩ := List.mem_flatMap.mp ht
    have hreadable := h.columnChanges change hchange
    cases change with
    | setDataType dataType =>
        obtain rfl := List.mem_singleton.mp hmem
        exact hreadable
    | _ => cases hmem

theorem Gathered.columnLists (h : s.Gathered d) :
    ∀ columns ∈ s.columnLists, ColumnIdent.ListReadable d columns := by
  intro columns hcolumns
  rcases List.mem_append.mp hcolumns with hcolumns | hcolumns
  · obtain ⟨c, hc, hcolumns⟩ := List.mem_filterMap.mp hcolumns
    have hrule := (h.constraints c hc).rule
    generalize c.rule = rule at hrule hcolumns
    cases rule with
    | check body => cases hcolumns
    | primaryKey key => cases hcolumns; exact hrule
    | foreignKey key target => cases hcolumns; exact hrule.1
    | unique key => cases hcolumns; exact hrule.1
    | index isUnique key => cases hcolumns; exact hrule.listReadable
  · obtain ⟨i, hi, rfl⟩ := List.mem_map.mp hcolumns
    exact (h.indexes i hi).columns

theorem exprs_of_rule {c : Constraint} (h : c.Readable d) :
    ∀ e ∈ c.rule.exprs, e.Readable d .parens := by
  intro e he
  have hrule := h.rule
  generalize c.rule = rule at hrule he
  cases rule with
  | check body =>
      obtain rfl := List.mem_singleton.mp he
      exact hrule
  | _ => cases he

-- Every expression was read at one of the three places.
theorem Gathered.exprs (h : s.Gathered d) : ∀ e ∈ s.exprs, ∃ place, e.Gathered d place := by
  intro e he
  simp only [Statement.exprs, List.mem_append] at he
  rcases he with ((he | he) | he) | he
  · obtain ⟨c, hc, hmem⟩ := List.mem_flatMap.mp he
    exact ⟨_, (h.columns c hc).default e (Option.mem_toList.mp hmem)⟩
  · obtain ⟨c, hc, hmem⟩ := List.mem_flatMap.mp he
    exact ⟨_, (exprs_of_rule (h.constraints c hc) e hmem).gathered⟩
  · obtain ⟨change, hchange, hmem⟩ := List.mem_flatMap.mp he
    have hreadable := h.columnChanges change hchange
    cases change with
    | setDefault value =>
        obtain rfl := List.mem_singleton.mp hmem
        exact ⟨_, Expr.Readable.gathered hreadable⟩
    | _ => cases hmem
  · obtain ⟨i, hi, hmem⟩ := List.mem_flatMap.mp he
    exact ⟨_, ((h.indexes i hi).predicate e (Option.mem_toList.mp hmem)).gathered⟩

theorem Gathered.enclosed (h : s.Gathered d) :
    ∀ e ∈ s.enclosed, ∃ place, place ≠ .statement ∧ e.Readable d place := by
  have hconstraints : ∀ e ∈ s.constraints.flatMap (·.rule.exprs),
      ∃ place, place ≠ .statement ∧ e.Readable d place := by
    intro e he
    obtain ⟨c, hc, hmem⟩ := List.mem_flatMap.mp he
    exact ⟨.parens, by simp, exprs_of_rule (h.constraints c hc) e hmem⟩
  intro e he
  cases s with
  | createTable t =>
      rcases List.mem_append.mp he with he | he
      · obtain ⟨c, hc, hmem⟩ := List.mem_flatMap.mp he
        have hcolumn := CreateTable.Readable.columns h c hc
        exact ⟨.columnDefault, by simp, hcolumn.default e (Option.mem_toList.mp hmem)⟩
      · exact hconstraints e he
  | _ => exact hconstraints e he

theorem Gathered.objects (h : s.Gathered d) : ∀ n ∈ s.objects, n.Readable d := by
  intro n hn
  cases s with
  | createTable t =>
      obtain rfl := List.mem_singleton.mp hn
      exact CreateTable.Readable.name h
  | dropTable ifExists name =>
      obtain rfl := List.mem_singleton.mp hn
      exact h
  | alterTable name change =>
      obtain rfl := List.mem_singleton.mp hn
      exact h.1
  | createIndex i =>
      have hparts : i.Parts d := CreateIndex.Readable.toParts h
      rcases List.mem_cons.mp hn with rfl | hn
      · exact hparts.name
      · obtain rfl := List.mem_singleton.mp hn
        exact hparts.table
  | dropIndex ifExists name table =>
      rcases List.mem_cons.mp hn with rfl | hn
      · exact h.1
      · exact h.2 n (Option.mem_toList.mp hn)

theorem Gathered.changedNames (h : s.Gathered d) : ∀ i ∈ s.changedNames, i.Readable d := by
  intro i hi
  cases s with
  | alterTable name change =>
      have hchange := h.2
      cases change with
      | renameTable new | dropColumn old | dropConstraint old =>
          obtain rfl := List.mem_singleton.mp hi
          exact hchange
      | renameColumn old new | renameConstraint old new =>
          rcases List.mem_cons.mp hi with rfl | hi
          · exact hchange.1
          · obtain rfl := List.mem_singleton.mp hi
            exact hchange.2
      | alterColumn old change =>
          obtain rfl := List.mem_singleton.mp hi
          exact hchange.1
      | _ => cases hi
  | _ => cases hi

theorem Gathered.references (h : s.Gathered d) : ∀ r ∈ s.references, r.Readable d := by
  intro r hr
  obtain ⟨c, hc, hmem⟩ := List.mem_flatMap.mp hr
  have hrule := (h.constraints c hc).rule
  generalize c.rule = rule at hrule hmem
  cases rule with
  | foreignKey columns target =>
      obtain rfl := List.mem_singleton.mp hmem
      exact hrule.2
  | _ => cases hmem

theorem Gathered.options (h : s.Gathered d) : ∀ o ∈ s.options, o.Readable d := by
  intro o ho
  cases s with
  | createTable t => exact CreateTable.Readable.options h o ho
  | _ => cases ho

end Statement

namespace Script

def exprs (s : Script) : List Expr :=
  s.flatMap Statement.exprs

theorem gathered_exprs {text : String} {s : Script} (h : parse d text = .ok s) :
    ∀ e ∈ exprs s, ∃ place, e.Gathered d place := by
  intro e he
  obtain ⟨statement, hs, hmem⟩ := List.mem_flatMap.mp he
  exact (gathered_of_parse h statement hs).exprs e hmem

end Script

end SchemaDiff
