import SchemaDiff.Statement
import SchemaDiff.Proofs.Catalog.Store

namespace SchemaDiff

-- What a database knows about a column. Texts are identities: quotes do not count.
structure ColumnState where
  dataType : String
  notNull : Bool
  default : Option String
  autoIncrement : Bool
deriving DecidableEq, Repr

namespace ColumnState

def of (c : Column) : ColumnState :=
  ⟨c.dataType.sql, c.notNull, c.default.map Expr.identity, c.autoIncrement⟩

def change (s : ColumnState) : ColumnChange → ColumnState
  | .setDataType dataType => { s with dataType := dataType.sql }
  | .setDefault value => { s with default := some value.identity }
  | .dropDefault => { s with default := none }
  | .setNotNull => { s with notNull := true }
  | .dropNotNull => { s with notNull := false }

end ColumnState

-- The columns of a table, and the definitions of the constraints that are no indexes.
structure TableState where
  columns : Store ColumnState
  constraints : Store String

namespace TableState

def empty : TableState := ⟨.empty, .empty⟩

def onColumns (t : TableState) (f : Store ColumnState → Option (Store ColumnState)) :
    Option TableState :=
  (f t.columns).map fun columns => { t with columns }

def onConstraints (t : TableState) (f : Store String → Option (Store String)) :
    Option TableState :=
  (f t.constraints).map fun constraints => { t with constraints }

end TableState

structure IndexState where
  table : String
  unique : Bool
  method : Option String
  columns : List (String × SortOrder)
  predicate : Option String
deriving DecidableEq, Repr

namespace IndexState

def columnsOf (columns : List ColumnIdent) : List (String × SortOrder) :=
  columns.map fun c => (c.ident.name, c.order)

-- Methods are compared without regard to case.
def of (i : CreateIndex) : IndexState where
  table := i.table.identity
  unique := i.unique
  method := i.method.map fun m => Text.upper m.name
  columns := columnsOf i.columns
  predicate := i.predicate.map Expr.identity

-- The index that is declared inside a table.
def inline (table : String) (isUnique : Bool) (columns : List ColumnIdent) : IndexState :=
  ⟨table, isUnique, none, columnsOf columns, none⟩

end IndexState

-- The state of a database. Names are logical names.
structure Catalog where
  tables : Store TableState
  indexes : Store IndexState

namespace Catalog

def onTable (c : Catalog) (table : String) (f : TableState → Option TableState) :
    Option Catalog :=
  (c.tables.change table f).map fun tables => { c with tables }

def addColumn (table : String) (c : Catalog) (column : Column) : Option Catalog :=
  c.onTable table fun t => t.onColumns (·.add column.name.name (.of column))

def addIndex (c : Catalog) (name : String) (index : IndexState) : Option Catalog :=
  if (c.tables index.table).isNone then none
  else (c.indexes.add name index).map fun indexes => { c with indexes }

-- A constraint that exists as an index is an index of the database.
def addConstraint (table : String) (c : Catalog) (k : Constraint) : Option Catalog :=
  match k.rule with
  | .index isUnique columns => c.addIndex k.name.name (.inline table isUnique columns)
  | _ => c.onTable table fun t => t.onConstraints (·.add k.name.name k.definition)

def createTable (c : Catalog) (t : CreateTable) : Option Catalog := do
  let tables ← c.tables.add t.name.identity .empty
  let filled ← t.columns.foldlM (addColumn t.name.identity) { c with tables }
  t.constraints.foldlM (addConstraint t.name.identity) filled

-- The indexes of a table are dropped with it.
def dropTable (c : Catalog) (table : String) : Option Catalog :=
  (c.tables.remove table).map fun tables =>
    ⟨tables, c.indexes.filter fun i => i.table != table⟩

-- Where the statement names a table, the index has to be on it.
def dropIndex (c : Catalog) (name : String) (table : Option String) : Option Catalog :=
  if (c.indexes name).any fun i => table.all (· == i.table) then
    (c.indexes.remove name).map fun indexes => { c with indexes }
  else none

def renameTable (c : Catalog) (old new : String) : Option Catalog :=
  (c.tables.rename old new).map fun tables =>
    ⟨tables, c.indexes.map fun i => if i.table = old then { i with table := new } else i⟩

def renameColumn (c : Catalog) (table old new : String) : Option Catalog :=
  (c.onTable table fun t => t.onColumns (·.rename old new)).map fun c =>
    { c with indexes := c.indexes.map fun i =>
        if i.table = table then
          { i with columns := i.columns.map fun (name, order) =>
              (if name = old then new else name, order) }
        else i }

-- The texts of definitions do not follow a rename.
def alterTable (c : Catalog) (table : String) : TableChange → Option Catalog
  | .renameTable new => c.renameTable table new.name
  | .renameColumn old new => c.renameColumn table old.name new.name
  | .renameConstraint old new =>
      c.onTable table fun t => t.onConstraints (·.rename old.name new.name)
  | .addColumn column => c.addColumn table column
  | .dropColumn name => c.onTable table fun t => t.onColumns (·.remove name.name)
  | .alterColumn name change =>
      c.onTable table fun t =>
        t.onColumns (·.change name.name fun column => some (column.change change))
  | .modifyColumn column =>
      c.onTable table fun t =>
        t.onColumns (·.change column.name.name fun _ => some (.of column))
  | .addConstraint constraint _ => c.addConstraint table constraint
  | .dropConstraint name => c.onTable table fun t => t.onConstraints (·.remove name.name)

-- Nothing is the result of a statement that touches what does not exist or creates what exists,
-- unless the statement allows for it.
def exec (c : Catalog) : Statement → Option Catalog
  | .createTable t =>
      if t.ifNotExists && (c.tables t.name.identity).isSome then some c else c.createTable t
  | .dropTable ifExists name =>
      if ifExists && (c.tables name.identity).isNone then some c else c.dropTable name.identity
  | .alterTable name change => c.alterTable name.identity change
  | .createIndex i =>
      if i.ifNotExists && (c.indexes i.name.identity).isSome then some c
      else c.addIndex i.name.identity (.of i)
  | .dropIndex ifExists name table =>
      if ifExists && (c.indexes name.identity).isNone then some c
      else c.dropIndex name.identity (table.map ObjectName.identity)

-- A migration stops at the first statement that fails.
def run (m : Script) (c : Catalog) : Option Catalog :=
  m.foldlM exec c

theorem addIndex_ofList {tables : Store TableState} {l r : List (String × IndexState)}
    {name : String} {index : IndexState} (h : (tables index.table).isSome = true)
    (hl : name ∉ l.map Prod.fst) (hr : name ∉ r.map Prod.fst) :
    addIndex ⟨tables, .ofList (l ++ r)⟩ name index =
      some ⟨tables, .ofList (l ++ (name, index) :: r)⟩ := by
  have hn : (tables index.table).isNone = false := by simpa using h
  simp only [addIndex, hn, Store.add_ofList l r name index hl hr, Option.map_some]
  rfl

theorem dropIndex_ofList {tables : Store TableState} {l r : List (String × IndexState)}
    {name : String} {index : IndexState} {table : Option String}
    (hl : name ∉ l.map Prod.fst) (hr : name ∉ r.map Prod.fst)
    (ht : table.all (· == index.table) = true) :
    dropIndex ⟨tables, .ofList (l ++ (name, index) :: r)⟩ name table =
      some ⟨tables, .ofList (l ++ r)⟩ := by
  simp only [dropIndex, Store.ofList_middle l r name index hl, Option.any_some, ht, if_true,
    Store.remove_ofList l r name index hl hr, Option.map_some]

@[simp] theorem run_nil (c : Catalog) : run [] c = some c := rfl

@[simp] theorem run_singleton (s : Statement) (c : Catalog) : run [s] c = c.exec s :=
  bind_pure (c.exec s)

theorem run_append (first second : Script) (c : Catalog) :
    run (first ++ second) c = (run first c).bind (run second) :=
  List.foldlM_append

theorem run_append_of {first second : Script} {c c' c'' : Catalog} (h : run first c = some c')
    (h' : run second c' = some c'') : run (first ++ second) c = some c'' := by
  rw [run_append, h, Option.bind_some, h']

-- A pass over a list, one run of statements for each of its members. `view` makes a state of what
-- the members stand for: `v` is that before the member had its turn, and `w` that after it.
theorem run_flatMap {α β : Type} (view : List β → Catalog) (statements : α → Script)
    (v w : α → List β) (xs : List α)
    (h : ∀ pre a post, xs = pre ++ a :: post →
      run (statements a) (view (pre.flatMap w ++ v a ++ post.flatMap v)) =
        some (view (pre.flatMap w ++ w a ++ post.flatMap v))) :
    run (xs.flatMap statements) (view (xs.flatMap v)) = some (view (xs.flatMap w)) := by
  have hrest : ∀ post pre, xs = pre ++ post →
      run (post.flatMap statements) (view (pre.flatMap w ++ post.flatMap v)) =
        some (view (xs.flatMap w)) := by
    intro post
    induction post with
    | nil =>
        rintro pre rfl
        simp
    | cons a post ih =>
        intro pre hxs
        have hstep := h pre a post hxs
        have hrun := ih (pre ++ [a]) (by simp [hxs])
        rw [List.flatMap_cons, List.flatMap_cons, ← List.append_assoc]
        refine run_append_of hstep ?_
        simpa using hrun
  simpa using hrest xs [] rfl

-- The same for members with names of their own, where a member stands only for what has its name.
theorem run_named {α β κ : Type} (view : List β → Catalog) (statements : α → Script)
    (v w : α → List β) (key : β → κ) (name : α → κ) (xs : List α) (hnames : (xs.map name).Nodup)
    (hv : ∀ x, ∀ b ∈ v x, key b = name x) (hw : ∀ x, ∀ b ∈ w x, key b = name x)
    (h : ∀ a ∈ xs, ∀ l r, name a ∉ l.map key → name a ∉ r.map key →
      run (statements a) (view (l ++ v a ++ r)) = some (view (l ++ w a ++ r))) :
    run (xs.flatMap statements) (view (xs.flatMap v)) = some (view (xs.flatMap w)) := by
  have hout : ∀ {f : α → List β} {ys : List α} {n : κ}, (∀ x, ∀ b ∈ f x, key b = name x) →
      n ∉ ys.map name → n ∉ (ys.flatMap f).map key := by
    intro f ys n hf hn hm
    obtain ⟨b, hb, rfl⟩ := List.mem_map.mp hm
    obtain ⟨y, hy, hby⟩ := List.mem_flatMap.mp hb
    exact hn (hf y b hby ▸ List.mem_map_of_mem hy)
  refine run_flatMap view statements v w xs fun pre a post hxs => ?_
  rw [hxs, List.map_append, List.map_cons, List.nodup_append] at hnames
  obtain ⟨-, hpost, hne⟩ := hnames
  refine h a (by simp [hxs]) _ _ (hout hw fun hm => hne _ hm _ (by simp) rfl)
    (hout hv (List.nodup_cons.mp hpost).1)

end Catalog

end SchemaDiff
