import SchemaDiff.Parser.Statement
import SchemaDiff.Proofs.Parser.Steps
import Mathlib.Data.List.Basic

namespace SchemaDiff

-- What a constraint demands, with everything that its name could be derived from.
inductive Demand
  | primaryKey (columns : List ColumnIdent)
  | foreignKey (columns : List ColumnIdent) (target : Reference)
  | unique (columns : List ColumnIdent)
  | check (body : Expr) (column : Option String)
  | index (columns : List ColumnIdent)
deriving DecidableEq, Repr

namespace Demand

def derivedName (d : Dialect) (table : ObjectName) : Demand → Ident
  | primaryKey _ => Constraint.Naming.primaryKey d table
  | foreignKey columns _ => Constraint.Naming.foreignKey d table columns
  | unique columns => Constraint.Naming.unique d table columns
  | check _ column => Constraint.Naming.check d table column
  | index columns => Constraint.Naming.index d table columns

def rule (d : Dialect) : Demand → Rule
  | primaryKey columns => .primaryKey columns
  | foreignKey columns target => .foreignKey columns target
  | unique columns =>
      match d.uniqueStyle with
      | .constraint => .unique columns
      | .index => .index true columns
  | check body _ => .check body
  | index columns => .index false columns

end Demand

-- A constraint as it is declared: with the name that is written, if there is one.
structure Declaration where
  name : Option Ident
  demand : Demand
deriving DecidableEq, Repr

def Declaration.constraint (d : Dialect) (table : ObjectName) (c : Declaration) : Constraint where
  name := c.name.getD (c.demand.derivedName d table)
  rule := c.demand.rule d

-- A clause of a column as it is declared.
inductive DeclaredClause
  | notNull
  | null
  | default (value : Expr)
  | autoIncrement
  | constraint (declaration : Declaration)
deriving DecidableEq, Repr

namespace DeclaredClause

def ofAttribute? : Parser.ColumnClause → Option DeclaredClause
  | .notNull => some notNull
  | .null => some null
  | .default value => some (default value)
  | .autoIncrement => some autoIncrement
  | .constraint _ => none

def clause (d : Dialect) (table : ObjectName) : DeclaredClause → Parser.ColumnClause
  | notNull => .notNull
  | null => .null
  | default value => .default value
  | autoIncrement => .autoIncrement
  | constraint declaration => .constraint (declaration.constraint d table)

def declaration? : DeclaredClause → Option Declaration
  | constraint declaration => some declaration
  | _ => none

theorem constraint?_clause (d : Dialect) (table : ObjectName) (c : DeclaredClause) :
    (c.clause d table).constraint? = c.declaration?.map (Declaration.constraint d table) := by
  cases c <;> rfl

end DeclaredClause

-- An entry of the body of a table as it is declared.
inductive DeclaredElement
  | column (name : Ident) (dataType : DataType) (clauses : List DeclaredClause)
  | constraint (declaration : Declaration)
deriving DecidableEq, Repr

namespace DeclaredElement

def element (d : Dialect) (table : ObjectName) : DeclaredElement → Parser.TableElement
  | column name dataType clauses =>
      .column (.ofClauses name dataType (clauses.map (DeclaredClause.clause d table)))
  | constraint declaration => .constraint (declaration.constraint d table)

def declarations : DeclaredElement → List Declaration
  | column _ _ clauses => clauses.filterMap DeclaredClause.declaration?
  | constraint declaration => [declaration]

theorem constraints_element (d : Dialect) (table : ObjectName) (e : DeclaredElement) :
    (e.element d table).constraints = e.declarations.map (Declaration.constraint d table) := by
  cases e with
  | constraint declaration => rfl
  | column name dataType clauses =>
      show List.filterMap _ (List.map _ clauses) = List.map _ (List.filterMap _ clauses)
      rw [List.filterMap_map, List.map_filterMap]
      exact List.filterMap_congr fun clause _ => clause.constraint?_clause d table

end DeclaredElement

-- A table as it is declared. No constraint has got a name that is not written.
structure DeclaredTable where
  ifNotExists : Bool
  name : ObjectName
  elements : List DeclaredElement
  options : List TableOption
deriving DecidableEq, Repr

namespace DeclaredTable

def declarations (t : DeclaredTable) : List Declaration :=
  t.elements.flatMap DeclaredElement.declarations

def table (d : Dialect) (t : DeclaredTable) : CreateTable :=
  let elements := t.elements.map (DeclaredElement.element d t.name)
  let constraints := elements.flatMap Parser.TableElement.constraints
  let columns := elements.filterMap Parser.TableElement.column?
  ⟨t.ifNotExists, t.name, columns.map (Parser.forceKeysNotNull constraints), constraints, t.options⟩

theorem constraints_table (d : Dialect) (t : DeclaredTable) :
    (t.table d).constraints = t.declarations.map (Declaration.constraint d t.name) := by
  show List.flatMap _ (List.map _ _) = List.map _ (List.flatMap _ _)
  rw [List.flatMap_map, List.map_flatMap]
  exact List.flatMap_congr fun e _ => e.constraints_element d t.name

end DeclaredTable

namespace Parser

variable {α β : Type} {d : Dialect} {table : ObjectName}

section Declarations

-- What the words behind the name of a clause demand of the column.
def clauseDemand? (column : Ident) : Option Keyword → Option (Parser Demand)
  | some .primary => some do
      let _ ← advance
      expectKeyword .key .columnDefinition
      return .primaryKey [.ascending column]
  | some .unique => some do
      let _ ← advance
      let _ ← consumeKeyword .key
      return .unique [.ascending column]
  | some .references => some do
      return .foreignKey [.ascending column] (← reference)
  | some .check => some do
      let _ ← advance
      let body ← checkBody
      return .check (exprOf body) column.name
  | _ => none

def declaredClause? (column : Ident) : Parser (Option DeclaredClause) := do
  let name ← constraintName?
  match clauseDemand? column (← current).keyword? with
  | some demand => return some (.constraint ⟨name, ← demand⟩)
  | none =>
      if name.isSome then fail .columnConstraint .columnConstraint
      else return (← columnAttribute?).bind DeclaredClause.ofAttribute?

-- What the words behind the name of a constraint demand of the table. An index may have a name of
-- its own.
def constraintDemand? (d : Dialect) (word : String) :
    Option Keyword → Option (Parser (Option Ident × Demand))
  | some .primary => some do
      let _ ← advance
      expectKeyword .key .tableConstraint
      return (none, .primaryKey (← columnList .primaryKey))
  | some .foreign => some do
      let _ ← advance
      expectKeyword .key .tableConstraint
      let columns ← columnList .foreignKey
      return (none, .foreignKey columns (← reference))
  | some .unique => some do
      let _ ← advance
      let indexName ← uniqueIndexName?
      return (indexName, .unique (← columnList .unique))
  | some .check => some do
      let _ ← advance
      let body ← checkBody
      return (none, .check (exprOf body) (firstColumn? body))
  | some .index | some .key =>
      if d.hasInlineIndex then some do
        let _ ← advance
        let (indexName, columns) ← withQuoteHint word inlineIndex
        return (indexName, .index columns)
      else none
  | _ => none

def declaredConstraint (d : Dialect) : Parser Declaration := do
  let name ← constraintName?
  let start ← current
  match constraintDemand? d start.literal start.keyword? with
  | some demand =>
      let (indexName, demand) ← demand
      return ⟨name <|> indexName, demand⟩
  | none => fail .tableConstraint .tableConstraint

def declaredElement (d : Dialect) : Parser DeclaredElement := do
  if startsTableConstraint d (← current) then
    return .constraint (← declaredConstraint d)
  let name ← ident .columnDefinition
  let type ← dataType d
  return .column name type (← many (declaredClause? name))

def declaredElements (d : Dialect) : Parser (List DeclaredElement) := do
  if ← check (.symbol .rightParen) then return []
  commaSeparated (declaredElement d)

def declaredTable (d : Dialect) : Parser DeclaredTable := do
  let ifNotExists ← ifNotExists .createTable
  let name ← objectName .tableName
  let elements ← inParens .createTable .commaOrCloseParen (declaredElements d)
  let options ← tableOptions d
  return ⟨ifNotExists, name, elements, options⟩

end Declarations

section Names

theorem columnAttribute?_eq : columnAttribute? = do
    return ((← columnAttribute?).bind DeclaredClause.ofAttribute?).map
      (DeclaredClause.clause d table) := by
  unfold columnAttribute?
  rw [bind_assoc]
  refine bind_congr fun t => ?_
  split <;> simp only [bind_assoc, pure_bind] <;> rfl

theorem clauseDemand?_eq_none {column : Ident} {k : Option Keyword} (hprimary : k ≠ some .primary)
    (hunique : k ≠ some .unique) (hreferences : k ≠ some .references) (hcheck : k ≠ some .check) :
    clauseDemand? column k = none := by
  unfold clauseDemand?
  split <;> first | contradiction | rfl

-- A clause gets its name behind the reading.
theorem columnClause?_eq (column : Ident) : columnClause? d table column = do
    return (← declaredClause? column).map (DeclaredClause.clause d table) := by
  unfold columnClause? declaredClause?
  rw [bind_assoc]
  refine bind_congr fun name => ?_
  rw [bind_assoc]
  refine bind_congr fun t => ?_
  split
  · rename_i hk
    simp only [hk, clauseDemand?, bind_assoc, pure_bind]
    rfl
  · rename_i hk
    simp only [hk, clauseDemand?, bind_assoc, pure_bind]
    rfl
  · rename_i hk
    simp only [hk, clauseDemand?, foreignKey, bind_assoc, pure_bind]
    rfl
  · rename_i hk
    simp only [hk, clauseDemand?, bind_assoc, pure_bind]
    rfl
  · rename_i hprimary hunique hreferences hcheck
    rw [clauseDemand?_eq_none hprimary hunique hreferences hcheck]
    cases name with
    | some name => rfl
    | none =>
        simp only [Option.isSome_none, Bool.false_eq_true, if_false, bind_assoc, pure_bind]
        exact columnAttribute?_eq

theorem constraintDemand?_eq_none {word : String} {k : Option Keyword} (hprimary : k ≠ some .primary)
    (hforeign : k ≠ some .foreign) (hunique : k ≠ some .unique) (hcheck : k ≠ some .check)
    (hindex : k ≠ some .index) (hkey : k ≠ some .key) : constraintDemand? d word k = none := by
  unfold constraintDemand?
  split <;> first | contradiction | rfl

theorem tableConstraint_eq : tableConstraint d table = do
    return (← declaredConstraint d).constraint d table := by
  have hname (name : Option Ident) : (name <|> (none : Option Ident)) = name := by cases name <;> rfl
  unfold tableConstraint declaredConstraint
  rw [bind_assoc]
  refine bind_congr fun name => ?_
  rw [bind_assoc]
  refine bind_congr fun start => ?_
  split
  · rename_i hk
    simp only [hk, constraintDemand?, bind_assoc, pure_bind, hname]
    rfl
  · rename_i hk
    simp only [hk, constraintDemand?, foreignKey, bind_assoc, pure_bind, hname]
    rfl
  · rename_i hk
    simp only [hk, constraintDemand?, bind_assoc, pure_bind]
    rfl
  · rename_i hk
    simp only [hk, constraintDemand?, bind_assoc, pure_bind, hname]
    rfl
  · rename_i hk
    simp only [hk, constraintDemand?]
    split
    · simp only [bind_assoc, pure_bind]
      rfl
    · rfl
  · rename_i hk
    simp only [hk, constraintDemand?]
    split
    · simp only [bind_assoc, pure_bind]
      rfl
    · rfl
  · rename_i hprimary hforeign hunique hcheck hindex hkey
    rw [constraintDemand?_eq_none hprimary hforeign hunique hcheck hindex hkey]
    rfl

end Names

section Maps

theorem map_apply (p : Parser α) (g : α → β) (s : Cursor) :
    (p >>= fun a => pure (g a)) s =
      match p s with
      | .ok a t => .ok (g a) t
      | .error e t => .error e t := by
  show EStateM.bind p _ s = _
  unfold EStateM.bind
  cases p s <;> rfl

theorem many_map (step : Parser (Option α)) (g : α → β) :
    many (step >>= fun o => pure (o.map g)) =
      (many step >>= fun as : List α => pure (as.map g) : Parser (List β)) := by
  funext s
  refine Eq.trans ?_ (map_apply (many step) (List.map g) s).symm
  induction s using many.induct step with
  | case1 s e t hstep => rw [many, many, map_apply, hstep]
  | case2 s t hstep =>
      rw [many, many, map_apply, hstep]
      rfl
  | case3 s a t hstep hlt rest u hrest ih =>
      rw [many, many, map_apply, hstep]
      rw [hrest] at ih
      simp only [Option.map_some, if_pos hlt, hrest, ih, List.map_cons]
  | case4 s a t hstep hlt e u hrest ih =>
      rw [many, many, map_apply, hstep]
      rw [hrest] at ih
      simp only [Option.map_some, if_pos hlt, hrest, ih]
  | case5 s a t hstep hlt =>
      rw [many, many, map_apply, hstep]
      simp only [Option.map_some, if_neg hlt, List.map_cons, List.map_nil]

theorem commaItem?_map (item : Parser α) (g : α → β) :
    commaItem? (item >>= fun a => pure (g a)) = commaItem? item >>= fun o => pure (o.map g) := by
  unfold commaItem?
  refine Eq.trans (bind_congr fun found => ?_) (bind_assoc _ _ _).symm
  cases found <;> simp only [bind_assoc, pure_bind, if_true, if_false, Bool.false_eq_true] <;> rfl

theorem commaSeparated_eq (item : Parser α) : commaSeparated item = do
    let first ← item
    return first :: (← many (commaItem? item)) :=
  rfl

theorem commaSeparated_map (item : Parser α) (g : α → β) :
    commaSeparated (item >>= fun a => pure (g a)) =
      commaSeparated item >>= fun as => pure (as.map g) := by
  rw [commaSeparated_eq, commaSeparated_eq, commaItem?_map, many_map, bind_assoc, bind_assoc]
  refine bind_congr fun first => ?_
  rw [pure_bind]
  refine (bind_assoc _ _ _).trans ?_
  refine Eq.trans ?_ (bind_assoc _ _ _).symm
  rfl

theorem inParens_map (c : Context) (e : Expected) (p : Parser α) (g : α → β) :
    inParens c e (p >>= fun a => pure (g a)) = inParens c e p >>= fun a => pure (g a) := by
  simp only [inParens, bind_assoc, pure_bind]

end Maps

section Tables

theorem tableElement_eq : tableElement d table = do
    return (← declaredElement d).element d table := by
  unfold tableElement declaredElement
  rw [bind_assoc]
  refine bind_congr fun t => ?_
  split
  · rw [tableConstraint_eq]
    simp only [bind_assoc, pure_bind]
    rfl
  · rw [columnDefinition]
    simp only [bind_assoc]
    refine bind_congr fun column => bind_congr fun type => ?_
    rw [columnClause?_eq, many_map]
    refine (bind_assoc _ _ _).trans ((bind_assoc _ _ _).trans ?_)
    refine Eq.trans ?_ (bind_assoc _ _ _).symm
    rfl

theorem tableElements_eq : tableElements d table = do
    return (← declaredElements d).map (DeclaredElement.element d table) := by
  unfold tableElements declaredElements
  rw [bind_assoc]
  refine bind_congr fun found => ?_
  split
  · rfl
  · rw [tableElement_eq]
    exact commaSeparated_map _ _

-- A table is read as it is declared, and its constraints get their names behind that.
theorem createTable_eq : createTable d = do return (← declaredTable d).table d := by
  unfold createTable declaredTable
  simp only [tableElements_eq, inParens_map, bind_assoc, pure_bind]
  rfl

theorem createTable_eq_ok {s u : Cursor} {t : CreateTable} (h : createTable d s = .ok t u) :
    ∃ declared, declaredTable d s = .ok declared u ∧ declared.table d = t := by
  rw [createTable_eq] at h
  obtain ⟨declared, v, hdeclared, hpure⟩ := bind_eq_ok.mp h
  cases hpure
  exact ⟨declared, hdeclared, rfl⟩

end Tables

end Parser

end SchemaDiff
