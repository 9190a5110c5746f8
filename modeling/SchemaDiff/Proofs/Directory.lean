import Mathlib.Data.Finset.Image
import SchemaDiff.Proofs.Catalog.Store
import SchemaDiff.Proofs.Watch

namespace SchemaDiff

-- The names that a table gives to its columns and constraints. Some of its constraints are indexes.
structure Members where
  columns : Finset String
  constraints : Finset String
  indexes : Finset String
deriving DecidableEq

-- The tables of a database, each with the names in it.
abbrev Directory := Store Members

namespace CreateTable

def members (t : CreateTable) : Members where
  columns := (t.columns.map (·.name.name)).toFinset
  constraints := (t.constraints.map (·.name.name)).toFinset
  indexes := ((t.constraints.filter (·.isIndex)).map (·.name.name)).toFinset

end CreateTable

namespace Members

-- What becomes of the names.
def change (m : Members) : TableChange → Members
  | .renameColumn old new => { m with columns := insert new.name (m.columns.erase old.name) }
  | .renameConstraint old new =>
      { m with
        constraints := insert new.name (m.constraints.erase old.name)
        indexes := m.indexes.image fun name => if name = old.name then new.name else name }
  | .addColumn column => { m with columns := insert column.name.name m.columns }
  | .dropColumn name => { m with columns := m.columns.erase name.name }
  | .addConstraint c _ =>
      { m with
        constraints := insert c.name.name m.constraints
        indexes := if c.isIndex then insert c.name.name m.indexes else m.indexes }
  | .dropConstraint name =>
      { m with
        constraints := m.constraints.erase name.name
        indexes := m.indexes.erase name.name }
  | .renameTable _ | .alterColumn _ _ | .modifyColumn _ => m

-- An index is dropped as the constraint that it is.
def dropIndex (m : Members) (name : String) : Members :=
  if name ∈ m.indexes then m.change (.dropConstraint (.bare name)) else m

end Members

namespace Directory

-- A table that is there already is not created again. An index that is created is no constraint.
def exec (o : Directory) : Statement → Directory
  | .createTable t => fun name =>
      (o name).or (if t.name.identity = name then some t.members else none)
  | .dropTable _ table => Function.update o table.identity none
  | .dropIndex _ index (some table) =>
      Function.update o table.identity ((o table.identity).map (·.dropIndex index.identity))
  | .dropIndex _ index none => fun name => (o name).map (·.dropIndex index.identity)
  | .alterTable table (.renameTable new) =>
      Function.update (Function.update o table.identity none) new.name (o table.identity)
  | .alterTable table change =>
      Function.update o table.identity ((o table.identity).map (·.change change))
  | .createIndex _ => o

-- What is renamed is there under its old name, and nothing of its kind is under the new one.
def Admits (o : Directory) : Statement → Prop
  | .alterTable table (.renameTable new) => (o table.identity).isSome = true ∧ o new.name = none
  | .alterTable table (.renameColumn old new) =>
      ∃ m ∈ o table.identity, old.name ∈ m.columns ∧ new.name ∉ m.columns
  | .alterTable table (.renameConstraint old new) =>
      ∃ m ∈ o table.identity, old.name ∈ m.constraints ∧ new.name ∉ m.constraints
  | _ => True

def watch : Watch Directory := ⟨exec, Admits⟩

-- What the statements of a schema lead to.
def of (s : Script) : Directory :=
  watch.execAll .empty s

end Directory

-- What a table gives names to.
inductive MemberKind
  | column | constraint
deriving DecidableEq

namespace MemberKind

def names : MemberKind → Members → Finset String
  | column, m => m.columns
  | constraint, m => m.constraints

def rename : MemberKind → Ident → Ident → TableChange
  | column => .renameColumn
  | constraint => .renameConstraint

end MemberKind

-- Names are changed one after the other. A name has to be taken to be changed, and not to be taken
-- to be given.
def Renamable (taken : String → Prop) : List (String × String) → Prop
  | [] => True
  | (old, new) :: rest =>
      taken old ∧ ¬taken new ∧ Renamable (fun name => name = new ∨ taken name ∧ name ≠ old) rest

-- If no name is both changed and given, all changes start from the names at the beginning.
theorem renamable_iff {taken : String → Prop} {renames : List (String × String)}
    (hapart : ∀ r ∈ renames, ∀ r' ∈ renames, r.1 ≠ r'.2) :
    Renamable taken renames ↔ (∀ r ∈ renames, taken r.1 ∧ ¬taken r.2) ∧
      (renames.map Prod.fst).Nodup ∧ (renames.map Prod.snd).Nodup := by
  induction renames generalizing taken with
  | nil => simp [Renamable]
  | cons r rest ih =>
      obtain ⟨old, new⟩ := r
      have hrest : Renamable (fun name => name = new ∨ taken name ∧ name ≠ old) rest ↔ _ :=
        ih fun r hr r' hr' => hapart r (by simp [hr]) r' (by simp [hr'])
      -- The first change takes a name from the others and gives one to none of them.
      have hothers : (∀ r ∈ rest, (r.1 = new ∨ taken r.1 ∧ r.1 ≠ old) ∧
            ¬(r.2 = new ∨ taken r.2 ∧ r.2 ≠ old)) ↔
          (∀ r ∈ rest, taken r.1 ∧ ¬taken r.2) ∧ old ∉ rest.map Prod.fst ∧
            new ∉ rest.map Prod.snd := by
        simp only [List.mem_map, not_exists, not_and, ← forall₂_and]
        refine forall₂_congr fun r hr => ?_
        have hleft : r.1 ≠ new := hapart r (by simp [hr]) (old, new) (by simp)
        have hright : r.2 ≠ old := (hapart (old, new) (by simp) r (by simp [hr])).symm
        simp only [hleft, hright, false_or, ne_eq, not_false_eq_true, and_true, not_or]
        tauto
      simp only [Renamable, hrest, hothers, List.map_cons, List.nodup_cons, List.forall_mem_cons]
      tauto

namespace Directory

variable {o : Directory} {table : ObjectName}

theorem exec_dropIndex_on (ifExists : Bool) (index : ObjectName) :
    watch.exec o (.dropIndex ifExists index (some table)) =
      Function.update o table.identity ((o table.identity).map (·.dropIndex index.identity)) := rfl

theorem exec_dropIndex (ifExists : Bool) (index : ObjectName) (name : String) :
    watch.exec o (.dropIndex ifExists index none) name =
      (o name).map (·.dropIndex index.identity) := rfl

-- A table without the index does not change.
theorem exec_dropIndex_of_not_mem (ifExists : Bool) {index : ObjectName} (onTable : Option ObjectName)
    {name : String} (h : ∀ m ∈ o name, index.identity ∉ m.indexes) :
    watch.exec o (.dropIndex ifExists index onTable) name = o name := by
  have hsame : (o name).map (·.dropIndex index.identity) = o name := by
    cases ho : o name with
    | none => rfl
    | some m => rw [Option.map_some, Members.dropIndex, if_neg (h m ho)]
  cases onTable with
  | none => exact hsame
  | some table =>
      rw [exec_dropIndex_on]
      by_cases hname : name = table.identity
      · rw [hname, Function.update_self, ← hname, hsame]
      · exact Function.update_of_ne hname _ _

theorem exec_rename (kind : MemberKind) (old new : Ident) :
    watch.exec o (.alterTable table (kind.rename old new)) =
      Function.update o table.identity ((o table.identity).map (·.change (kind.rename old new))) := by
  cases kind <;> rfl

-- The renames of one kind in a table are admitted if its names can be changed that way.
theorem follows_renames (kind : MemberKind) {renames : List (Ident × Ident)} {m : Members}
    (h : o table.identity = some m) :
    watch.Follows o (renames.map fun r => .alterTable table (kind.rename r.1 r.2)) ↔
      Renamable (· ∈ kind.names m) (renames.map fun r => (r.1.name, r.2.name)) := by
  induction renames generalizing o m with
  | nil => simp [Watch.Follows, Renamable]
  | cons r rest ih =>
      obtain ⟨old, new⟩ := r
      have hadmits : watch.Admits o (.alterTable table (kind.rename old new)) ↔
          old.name ∈ kind.names m ∧ new.name ∉ kind.names m := by
        cases kind <;> simp [watch, Admits, MemberKind.rename, MemberKind.names, h]
      have hstate : watch.exec o (.alterTable table (kind.rename old new)) table.identity =
          some (m.change (kind.rename old new)) := by
        rw [exec_rename, Function.update_self, h, Option.map_some]
      have hnames : (fun name => name ∈ kind.names (m.change (kind.rename old new))) =
          fun name => name = new.name ∨ name ∈ kind.names m ∧ name ≠ old.name := by
        funext name
        cases kind <;>
          simp [Members.change, MemberKind.rename, MemberKind.names, and_comm]
      rw [List.map_cons, List.map_cons, Watch.Follows, hadmits, ih hstate, hnames, Renamable,
        and_assoc]

-- Tables are renamed in the same way.
theorem follows_renameTables {renames : List (ObjectName × Ident)} :
    watch.Follows o (renames.map fun r => .alterTable r.1 (.renameTable r.2)) ↔
      Renamable (fun name => (o name).isSome = true)
        (renames.map fun r => (r.1.identity, r.2.name)) := by
  induction renames generalizing o with
  | nil => simp [Watch.Follows, Renamable]
  | cons r rest ih =>
      obtain ⟨old, new⟩ := r
      rw [List.map_cons, List.map_cons, Watch.Follows, Renamable, ih]
      have hadmits : watch.Admits o (.alterTable old (.renameTable new)) ↔
          (o old.identity).isSome = true ∧ ¬(o new.name).isSome = true := by
        simp [watch, Admits]
      rw [hadmits, and_assoc]
      refine and_congr_right fun hold => and_congr_right fun hnew => ?_
      have htaken : (fun name => (watch.exec o (.alterTable old (.renameTable new)) name).isSome =
          true) = fun name => name = new.name ∨ (o name).isSome = true ∧ name ≠ old.identity := by
        funext name
        have hexec : watch.exec o (.alterTable old (.renameTable new)) =
            Function.update (Function.update o old.identity none) new.name (o old.identity) := rfl
        rw [hexec]
        by_cases hn : name = new.name
        · simp [hn, hold]
        · rw [Function.update_of_ne hn]
          by_cases ho : name = old.identity
          · simp [ho, ho ▸ hn]
          · simp [hn, ho]
      rw [htaken]

end Directory

-- The name that a name becomes.
def newName (renames : List (String × String)) (name : String) : String :=
  ((renames.find? (·.1 == name)).map Prod.snd).getD name

namespace Directory

variable {o : Directory}

-- What was there under a name is there under the name that it became.
theorem execAll_renameTables {renames : List (ObjectName × Ident)}
    (hold : (renames.map (·.1.identity)).Nodup) (hnew : (renames.map (·.2.name)).Nodup)
    (hfree : ∀ r ∈ renames, o r.2.name = none)
    (hapart : ∀ r ∈ renames, ∀ r' ∈ renames, r.1.identity ≠ r'.2.name)
    {name : String} (hname : (o name).isSome = true) :
    watch.execAll o (renames.map fun r => .alterTable r.1 (.renameTable r.2))
      (newName (renames.map fun r => (r.1.identity, r.2.name)) name) = o name := by
  induction renames generalizing o name with
  | nil => rfl
  | cons r rest ih =>
      obtain ⟨old, new⟩ := r
      rw [List.map_cons, List.nodup_cons] at hold hnew
      have hstate : watch.exec o (.alterTable old (.renameTable new)) =
          Function.update (Function.update o old.identity none) new.name (o old.identity) := rfl
      have hrest : ∀ r ∈ rest,
          watch.exec o (.alterTable old (.renameTable new)) r.2.name = none := by
        intro r hr
        have hother : r.2.name ≠ new.name := fun he => hnew.1 (he ▸ List.mem_map_of_mem hr)
        rw [hstate, Function.update_of_ne hother]
        by_cases ho : r.2.name = old.identity
        · rw [ho, Function.update_self]
        · rw [Function.update_of_ne ho]
          exact hfree r (by simp [hr])
      have hapart' : ∀ r ∈ rest, ∀ r' ∈ rest, r.1.identity ≠ r'.2.name :=
        fun r hr r' hr' => hapart r (by simp [hr]) r' (by simp [hr'])
      rw [List.map_cons, List.map_cons, Watch.execAll_cons]
      by_cases hn : name = old.identity
      · subst hn
        have hlast : newName (rest.map fun r => (r.1.identity, r.2.name)) new.name = new.name := by
          have hnone : (rest.map fun r => (r.1.identity, r.2.name)).find? (·.1 == new.name) = none := by
            simp only [List.find?_eq_none, List.forall_mem_map, beq_iff_eq]
            exact fun r hr => hapart r (by simp [hr]) (old, new) (by simp)
          simp [newName, hnone]
        have hthere : (watch.exec o (.alterTable old (.renameTable new)) new.name).isSome = true := by
          rw [hstate, Function.update_self]
          exact hname
        have hnow := ih hold.2 hnew.2 hrest hapart' hthere
        rw [hlast] at hnow
        have hhead : newName ((old.identity, new.name) ::
            rest.map fun r => (r.1.identity, r.2.name)) old.identity = new.name := by
          simp [newName]
        rw [hhead, hnow, hstate, Function.update_self]
      · have htail : newName ((old.identity, new.name) ::
            rest.map fun r => (r.1.identity, r.2.name)) name =
              newName (rest.map fun r => (r.1.identity, r.2.name)) name := by
          rw [newName, List.find?_cons_of_neg (by simpa using Ne.symm hn), newName]
        have hsame : watch.exec o (.alterTable old (.renameTable new)) name = o name := by
          have hother : name ≠ new.name := by
            rintro rfl
            rw [hfree (old, new) (by simp)] at hname
            cases hname
          rw [hstate, Function.update_of_ne hother, Function.update_of_ne hn]
        rw [htail, ih hold.2 hnew.2 hrest hapart' (by rw [hsame]; exact hname), hsame]

end Directory

end SchemaDiff
