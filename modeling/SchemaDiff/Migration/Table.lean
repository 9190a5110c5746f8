import SchemaDiff.Migration.Step

namespace SchemaDiff.Migration

-- Two versions of one table, and what the run knows about renames.
structure TablePair where
  dialect : Dialect
  notValid : Bool
  old : CreateTable
  new : CreateTable
  -- The old name of the table, if it is renamed.
  renamedFrom : Option String
  -- The hints for the columns of this table.
  columnRenames : List ColumnRename
  -- The hints for all tables.
  tableRenames : List TableRename
deriving DecidableEq, Repr

namespace TablePair

def alter (p : TablePair) (change : TableChange) : List Step :=
  Step.alter p.new.name change

-- Options belong to the whole table and are never changed.
def optionSteps (p : TablePair) : List Step :=
  let old := p.old.options.map TableOption.identity
  let new := p.new.options.map TableOption.identity
  if old = new then [] else [.refuse (.optionsChanged p.new.name old new)]

-- A reference of a table to itself follows the renames of its own columns.
def renameReference (p : TablePair) (target : Reference) : Reference :=
  let table := renameTable p.dialect p.tableRenames target.table
  let columns :=
    if table.identity = p.new.name.identity then
      renameColumns p.dialect p.columnRenames target.columns
    else target.columns
  { target with table, columns }

def renameRule (p : TablePair) : Rule → Rule
  | .primaryKey columns => .primaryKey (renameColumns p.dialect p.columnRenames columns)
  | .foreignKey columns target =>
      .foreignKey (renameColumns p.dialect p.columnRenames columns) (p.renameReference target)
  | .unique columns => .unique (renameColumns p.dialect p.columnRenames columns)
  | .check body => .check body
  | .index isUnique columns =>
      .index isUnique (renameColumns p.dialect p.columnRenames columns)

-- The old constraints as they are after the tables and columns got their new names.
def oldConstraints (p : TablePair) : List Constraint :=
  p.old.constraints.map fun c => { c with rule := p.renameRule c.rule }

-- The old columns as they are after they got their new names.
def oldColumns (p : TablePair) : List Column :=
  p.old.columns.map fun c => { c with name := renameColumn p.dialect p.columnRenames c.name }

def oldColumn? (p : TablePair) (name : String) : Option Column :=
  p.oldColumns.find? (·.name.name == name)

-- The name of a constraint that begins with the old name of the table, with the new name in its
-- place.
def movedName? (p : TablePair) (name : String) : Option String := do
  let table ← p.renamedFrom
  let suffix ← (table.toList ++ ['_']).isPrefixOf? name.toList
  return p.new.name.identity ++ "_" ++ String.ofList suffix

-- The new constraint that an old one became when its table was renamed.
def moved? (p : TablePair) (old : Constraint) : Option Constraint := do
  let name ← p.movedName? old.name.name
  if (p.new.constraint? old.name.name).isSome then none
  let new ← p.new.constraint? name
  if new.definition = old.definition then some new else none

def canRename (p : TablePair) (old : Constraint) : Bool :=
  !old.isIndex && p.dialect.hasRenameConstraint

structure RenamedConstraint where
  old : Constraint
  new : Constraint
deriving DecidableEq, Repr

def renamedConstraints (p : TablePair) : List RenamedConstraint :=
  p.oldConstraints.filterMap fun old =>
    if p.canRename old then (p.moved? old).map (⟨old, ·⟩) else none

def renameConstraintSteps (p : TablePair) : List Step :=
  p.oldConstraints.flatMap fun old =>
    match p.moved? old with
    | some new =>
        if p.canRename old then p.alter (.renameConstraint old.name new.name)
        else [.note (.notRenaming p.dialect old.name new.name.name)]
    | none => []

-- The new version of an old constraint.
def counterpart? (p : TablePair) (old : Constraint) : Option Constraint :=
  (p.renamedConstraints.find? (·.old.name == old.name)).map (·.new) <|>
    p.new.constraint? old.name.name

-- The new version of an old constraint, if it demands something else.
def changed? (p : TablePair) (old : Constraint) : Option Constraint :=
  (p.counterpart? old).filter (·.definition != old.definition)

def dropConstraint (p : TablePair) (c : Constraint) : List Step :=
  if c.isIndex then
    let table := if p.dialect.dropsIndexOnTable then some p.new.name else none
    Step.announce (.dropIndex false (.ofIdent c.name) table)
  else p.alter (.dropConstraint c.name)

def dropConstraintSteps (p : TablePair) : List Step :=
  p.oldConstraints.flatMap fun old =>
    if (p.counterpart? old).isNone then p.dropConstraint old
    else if (p.changed? old).isSome then
      .note (.recreatingConstraint old.name) :: p.dropConstraint old
    else []

def addConstraint (p : TablePair) (c : Constraint) : List Step :=
  match c.rule with
  | .index isUnique columns =>
      Step.announce
        (.createIndex ⟨isUnique, false, .ofIdent c.name, p.new.name, none, columns, none⟩)
  | .foreignKey _ _ | .check _ =>
      p.alter (.addConstraint c (p.notValid && p.dialect.hasNotValid))
  | .primaryKey _ | .unique _ => p.alter (.addConstraint c false)

-- A constraint that was there under its name, or got its name by a rename.
def existed (p : TablePair) (new : Constraint) : Bool :=
  p.oldConstraints.any (·.name.name == new.name.name) ||
    p.renamedConstraints.any (·.new.name == new.name)

-- A constraint that was dropped because it demanded something else.
def wasChanged (p : TablePair) (new : Constraint) : Bool :=
  (p.oldConstraints.filterMap p.changed?).any (·.name == new.name)

def addConstraintSteps (p : TablePair) : List Step :=
  p.new.constraints.flatMap fun new =>
    if !p.existed new || p.wasChanged new then p.addConstraint new else []

def renameColumnStep (p : TablePair) (rename : ColumnRename) : List Step :=
  match p.old.column? rename.old, p.new.column? rename.new with
  | some old, some new =>
      if (p.new.column? rename.old).isSome then [.refuse (.columnKept p.new.name rename)]
      else p.alter (.renameColumn old.name new.name)
  | _, _ => [.refuse (.columnMissing p.new.name rename)]

def dropColumnSteps (p : TablePair) : List Step :=
  p.oldColumns.flatMap fun old =>
    if (p.new.column? old.name.name).isNone then p.alter (.dropColumn old.name) else []

def changeColumn (p : TablePair) (new : Column) (change : ColumnChange) : List Step :=
  p.alter (.alterColumn new.name change)

def defaultSteps (p : TablePair) (old new : Column) : List Step :=
  if old.default.map Expr.identity = new.default.map Expr.identity then []
  else p.changeColumn new (new.default.elim .dropDefault .setDefault)

def nullSteps (p : TablePair) (old new : Column) : List Step :=
  if old.notNull = new.notNull then []
  else p.changeColumn new (if new.notNull then .setNotNull else .dropNotNull)

-- Whether the whole column has to be written anew where there is no action for a type. This sets
-- its default as well.
def needsModify (old new : Column) : Bool :=
  old.dataType.sql != new.dataType.sql || old.notNull != new.notNull ||
    old.autoIncrement != new.autoIncrement

def alterColumnStep (p : TablePair) (old new : Column) : List Step :=
  match p.dialect.alterColumnStyle with
  | .modify =>
      if needsModify old new then p.alter (.modifyColumn new) else p.defaultSteps old new
  | .standard =>
      if old.autoIncrement != new.autoIncrement then
        [.refuse (.autoIncrementChanged p.new.name new.name)]
      else
        (if old.dataType.sql = new.dataType.sql then []
          else p.changeColumn new (.setDataType new.dataType)) ++
        p.defaultSteps old new ++ p.nullSteps old new

def alterColumnSteps (p : TablePair) : List Step :=
  p.new.columns.flatMap fun new =>
    match p.oldColumn? new.name.name with
    | some old => p.alterColumnStep old new
    | none => []

def addColumnSteps (p : TablePair) : List Step :=
  p.new.columns.flatMap fun new =>
    if (p.oldColumn? new.name.name).isNone then p.alter (.addColumn new) else []

def columnSteps (p : TablePair) : List Step :=
  p.columnRenames.flatMap p.renameColumnStep ++ p.dropColumnSteps ++ p.alterColumnSteps ++
    p.addColumnSteps

-- Constraints are dropped before the columns that they are about change, and added after.
def steps (p : TablePair) : List Step :=
  p.optionSteps ++ [.note (.comparingTable p.new.name)] ++ p.renameConstraintSteps ++
    p.dropConstraintSteps ++ p.columnSteps ++ p.addConstraintSteps

end TablePair

end SchemaDiff.Migration
