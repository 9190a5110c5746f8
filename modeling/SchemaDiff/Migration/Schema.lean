import SchemaDiff.Migration.Table

namespace SchemaDiff.Migration

-- What a schema consists of.
inductive SchemaObject
  | table (table : CreateTable)
  | index (index : CreateIndex)
deriving DecidableEq, Repr

-- Objects of two schemas are matched by kind and name.
inductive ObjectKey
  | table (name : String)
  | index (name : String)
deriving DecidableEq, Repr

namespace SchemaObject

def ofStatement? : Statement → Option SchemaObject
  | .createTable t => some (table t)
  | .createIndex i => some (index i)
  | _ => none

def statement : SchemaObject → Statement
  | table t => .createTable t
  | index i => .createIndex i

def key : SchemaObject → ObjectKey
  | table t => .table t.name.identity
  | index i => .index i.name.identity

-- `onTable` is the table that an index is on at the time when it is dropped.
def dropStatement (d : Dialect) (onTable : ObjectName → ObjectName) : SchemaObject → Statement
  | table t => .dropTable false t.name
  | index i =>
      .dropIndex false i.name (if d.dropsIndexOnTable then some (onTable i.table) else none)

end SchemaObject

def objects (s : Script) : List SchemaObject :=
  s.filterMap SchemaObject.ofStatement?

-- The first table of that name.
def table? (s : Script) (name : String) : Option CreateTable :=
  s.findSome? fun
    | .createTable t => if t.name.identity = name then some t else none
    | _ => none

def objectRefusals (s : Script) : List Step :=
  s.filterMap fun statement =>
    if (SchemaObject.ofStatement? statement).isNone then
      some (.refuse (.notAnObject statement))
    else none

-- Two schemas and how they are to be compared.
structure SchemaPair where
  dialect : Dialect
  options : Options
  before : Script
  after : Script
deriving DecidableEq, Repr

namespace SchemaPair

def tableHintRefusal? (p : SchemaPair) (rename : TableRename) : Option Refusal :=
  if (table? p.before rename.old).isNone then some (.oldTableMissing rename)
  else if (table? p.after rename.new).isNone then some (.newTableMissing rename)
  else if (table? p.before rename.new).isSome then some (.newTableTaken rename)
  else none

-- The key under which an old object is found in the new schema.
def oldKey (p : SchemaPair) (o : SchemaObject) : ObjectKey :=
  match o.key with
  | .table name => .table ((newTableName? p.options.tableRenames name).getD name)
  | .index name => .index name

-- If several objects of a schema have one key, the last of them counts.
def old? (p : SchemaPair) (key : ObjectKey) : Option SchemaObject :=
  (objects p.before).reverse.find? (p.oldKey · == key)

def new? (p : SchemaPair) (key : ObjectKey) : Option SchemaObject :=
  (objects p.after).reverse.find? (·.key == key)

def columnHintRefusal? (p : SchemaPair) (rename : ColumnRename) : Option Refusal :=
  if (table? p.after rename.table).isNone || (p.old? (.table rename.table)).isNone then
    some (.tableNotShared rename)
  else none

-- Hints must fit the schemas, and schemas must consist of objects.
def refusals (p : SchemaPair) : List Step :=
  (p.options.tableRenames.filterMap p.tableHintRefusal?).map .refuse ++
    objectRefusals p.before ++ objectRefusals p.after ++
    (p.options.columnRenames.filterMap p.columnHintRefusal?).map .refuse

def renames (p : SchemaPair) : List Step :=
  p.options.tableRenames.flatMap fun rename =>
    match table? p.before rename.old, table? p.after rename.new with
    | some old, some new =>
        .note (.renamingTable rename) :: Step.alter old.name (.renameTable new.name.name)
    | _, _ => []

-- Whether an old index, on the renamed table and over the renamed columns, differs from its new
-- definition.
def indexChanged (p : SchemaPair) (old new : CreateIndex) : Bool :=
  let table := renameTable p.dialect p.options.tableRenames old.table
  let columns :=
    renameColumns p.dialect (p.options.columnRenamesOf table.identity) old.columns
  { old with table, columns }.identity != new.identity

def isDropped (p : SchemaPair) (old : SchemaObject) : Bool :=
  match old, p.new? (p.oldKey old) with
  | _, none => true
  | .index old, some (.index new) => p.indexChanged old new
  | _, some _ => false

-- Objects are dropped in the reverse order of the old schema. A changed index loses its old form
-- here, ahead of any column that it covers.
def drops (p : SchemaPair) : List Step :=
  ((objects p.before).reverse.filter p.isDropped).map fun old =>
    .emit (old.dropStatement p.dialect (renameTable p.dialect p.options.tableRenames))

def creates (p : SchemaPair) : List Step :=
  ((objects p.after).filter fun new => (p.old? new.key).isNone).map fun new =>
    .emit new.statement

def tablePair (p : SchemaPair) (old new : CreateTable) : TablePair where
  dialect := p.dialect
  notValid := p.options.notValid
  old := old
  new := new
  renamedFrom := (p.options.tableRenames.find? (·.new == new.name.identity)).map (·.old)
  columnRenames := p.options.columnRenamesOf new.name.identity
  tableRenames := p.options.tableRenames

def alterSteps (p : SchemaPair) (new : SchemaObject) : List Step :=
  match p.old? new.key, new with
  | some (.index old), .index new =>
      if p.indexChanged old new then
        [.note (.recreatingIndex new.name), .emit (.createIndex new)]
      else []
  | some (.table old), .table new => (p.tablePair old new).steps
  | _, _ => []

def alters (p : SchemaPair) : List Step :=
  (objects p.after).flatMap p.alterSteps

def steps (p : SchemaPair) : List Step :=
  p.refusals ++ p.renames ++ p.drops ++ p.creates ++ p.alters

end SchemaPair

end SchemaDiff.Migration
