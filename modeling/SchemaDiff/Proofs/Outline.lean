import Mathlib.Data.Finset.Image
import SchemaDiff.Proofs.Catalog.Store
import SchemaDiff.Proofs.Watch

namespace SchemaDiff

-- The tables of a database, each with the names of its columns.
abbrev Outline := Store (Finset String)

namespace Expr

-- The words of an expression that no parenthesis follows. A word in front of one is a function.
def namesIn : List Ident → List String
  | [] => []
  | token :: rest =>
      if rest.head?.any (·.raw == "(") ||
          (token.quote.isNone && (keyword? token.name).isSome) then namesIn rest
      else token.name :: namesIn rest

-- The columns of a table that an expression is about.
def mentions (e : Expr) (target : Outline) (table : String) : List String :=
  (namesIn e.tokens).filter fun name => (target table).any (name ∈ ·)

end Expr

-- A table, and columns of it.
structure Need where
  table : String
  columns : List String
deriving DecidableEq, Repr

namespace Rule

-- What a rule on a table is about. The columns of expressions are those of the schema that the
-- rule is part of.
def needs (target : Outline) (table : String) : Rule → List Need
  | primaryKey columns | unique columns | index _ columns =>
      [⟨table, columns.map (·.ident.name)⟩]
  | foreignKey columns reference =>
      [⟨table, columns.map (·.ident.name)⟩,
        ⟨reference.table.identity, reference.columns.map (·.ident.name)⟩]
  | check body => [⟨table, body.mentions target table⟩]

end Rule

namespace CreateTable

def columnNames (t : CreateTable) : Finset String :=
  (t.columns.map (·.name.name)).toFinset

def needs (target : Outline) (t : CreateTable) : List Need :=
  t.constraints.flatMap fun c => c.rule.needs target t.name.identity

end CreateTable

namespace CreateIndex

def needs (target : Outline) (i : CreateIndex) : List Need :=
  [⟨i.table.identity, i.columns.map (·.ident.name) ++
    i.predicate.elim [] (·.mentions target i.table.identity)⟩]

end CreateIndex

namespace Statement

-- The tables and columns that the creation of a table, an index or a constraint names.
def needs (target : Outline) : Statement → List Need
  | createTable t => t.needs target
  | createIndex i => i.needs target
  | alterTable table (.addConstraint c _) => c.rule.needs target table.identity
  | _ => []

end Statement

namespace TableChange

-- What becomes of the names of the columns.
def onColumns (columns : Finset String) : TableChange → Finset String
  | addColumn column => insert column.name.name columns
  | dropColumn name => columns.erase name.name
  | renameColumn old new => columns.image fun c => if c = old.name then new.name else c
  | _ => columns

end TableChange

namespace Outline

-- A table that is there already is not created again.
def exec (o : Outline) : Statement → Outline
  | .createTable t => fun name =>
      (o name).or (if t.name.identity = name then some t.columnNames else none)
  | .dropTable _ table => Function.update o table.identity none
  | .alterTable table (.renameTable new) =>
      Function.update (Function.update o table.identity none) new.name (o table.identity)
  | .alterTable table change =>
      Function.update o table.identity ((o table.identity).map change.onColumns)
  | .createIndex _ | .dropIndex _ _ _ => o

def Meets (o : Outline) (n : Need) : Prop :=
  ∃ columns ∈ o n.table, ∀ name ∈ n.columns, name ∈ columns

instance (o : Outline) : DecidablePred o.Meets :=
  fun n => inferInstanceAs (Decidable (∃ columns ∈ o n.table, ∀ name ∈ n.columns, name ∈ columns))

-- What a statement names is there when it is executed. A table may name itself, hence counts as
-- being there when it is created.
def Admits (o target : Outline) (s : Statement) : Prop :=
  ∀ n ∈ s.needs target, (o.exec s).Meets n

instance (o target : Outline) : DecidablePred (o.Admits target) :=
  fun s => inferInstanceAs (Decidable (∀ n ∈ s.needs target, (o.exec s).Meets n))

def watch (target : Outline) : Watch Outline :=
  ⟨exec, fun o => o.Admits target⟩

instance (target o : Outline) : DecidablePred ((watch target).Admits o) :=
  inferInstanceAs (DecidablePred (o.Admits target))

-- What a schema consists of.
def of (s : Script) : Outline :=
  s.foldl exec .empty

variable {target : Outline}

theorem admits_of_no_needs {o : Outline} {s : Statement} (h : s.needs target = []) :
    o.Admits target s := by
  simp [Admits, h]

theorem follows_of_no_needs {o : Outline} {m : Script} (h : ∀ s ∈ m, s.needs target = []) :
    (watch target).Follows o m :=
  Watch.follows_of_forall fun s hs _ => admits_of_no_needs (h s hs)

-- Statements that leave the tables as they are, and name what is there.
theorem leads_of_meets {o : Outline} {m : Script}
    (h : ∀ s ∈ m, o.exec s = o ∧ ∀ n ∈ s.needs target, o.Meets n) :
    (watch target).Leads o m o := by
  refine Watch.leads_of_forall fun s hs => ?_
  obtain ⟨hexec, hneeds⟩ := h s hs
  refine ⟨fun n hn => ?_, hexec⟩
  rw [hexec]
  exact hneeds n hn

end Outline

end SchemaDiff
