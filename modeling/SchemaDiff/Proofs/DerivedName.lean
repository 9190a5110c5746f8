import SchemaDiff.Proofs.Declaration
import SchemaDiff.Proofs.Splitting

namespace SchemaDiff

variable {d : Dialect} {table : ObjectName}

namespace Demand

-- How a derived name is made up.
inductive Scheme
  | primaryKey | foreignKey | unique | check | index
deriving DecidableEq, Repr

def scheme : Demand → Scheme
  | primaryKey _ => .primaryKey
  | foreignKey _ _ => .foreignKey
  | unique _ => .unique
  | check _ _ => .check
  | index _ => .index

-- What the name says about columns.
def stem : Demand → Option String
  | primaryKey _ => none
  | foreignKey columns _ => some (Constraint.Naming.joined columns)
  | unique columns => some (Constraint.Naming.joined columns)
  | check _ column => column
  | index columns => some (Constraint.Naming.joined columns)

namespace Scheme

-- What stands in front of the columns.
def lead : Scheme → String
  | unique => "_unique"
  | _ => ""

-- What stands behind the columns.
def suffix : Scheme → String
  | primaryKey => "_pkey"
  | foreignKey => "_fkey"
  | unique => ""
  | check => "_check"
  | index => "_idx"

theorem eq_of_suffix {a b : Scheme} (ha : a ≠ unique) (hb : b ≠ unique)
    (h : a.suffix.toList <:+ b.suffix.toList) : a = b := by
  revert ha hb h
  cases a <;> cases b <;> decide

-- No suffix ends another one, so the text in front of it is known.
theorem append_suffix_inj {a b : Scheme} (ha : a ≠ unique) (hb : b ≠ unique) {x y : String}
    (h : x ++ a.suffix = y ++ b.suffix) : a = b ∧ x = y := by
  have htext := congrArg String.toList h
  rw [String.toList_append, String.toList_append] at htext
  have hab : a = b := by
    rcases List.suffix_or_suffix_of_suffix ⟨x.toList, rfl⟩ ⟨y.toList, htext.symm⟩ with hsuffix | hsuffix
    · exact eq_of_suffix ha hb hsuffix
    · exact (eq_of_suffix hb ha hsuffix).symm
  subst hab
  exact ⟨rfl, (String.append_left_inj _).mp h⟩

end Scheme

-- A stem behind its underscore.
def spelledStem (stem : Option String) : String :=
  stem.elim "" ("_" ++ ·)

theorem spelledStem_inj {x y : Option String} (h : spelledStem x = spelledStem y) : x = y := by
  have hne (z : String) : spelledStem (some z) ≠ "" := by
    rw [Ne, ← String.toList_inj]
    simp [spelledStem]
  cases x with
  | none =>
      cases y with
      | none => rfl
      | some y => exact absurd h.symm (hne y)
  | some x =>
      cases y with
      | none => exact absurd h (hne x)
      | some y => exact congrArg some ((String.append_right_inj _).mp h)

-- What stands behind the name of the table.
def ending (a : Demand) : String :=
  a.scheme.lead ++ (spelledStem a.stem ++ a.scheme.suffix)

theorem derivedName_eq (a : Demand) :
    a.derivedName d table = .derived d (table.identity ++ a.ending) := by
  have hname (text : String) (h : text.toList = (table.identity ++ a.ending).toList) :
      Ident.derived d text = .derived d (table.identity ++ a.ending) :=
    congrArg (Ident.derived d) (String.toList_inj.mp h)
  cases a with
  | check body column =>
      cases column <;> exact hname _ (by simp [ending, scheme, stem, spelledStem, Scheme.lead,
        Scheme.suffix])
  | _ => exact hname _ (by simp [ending, scheme, stem, spelledStem, Scheme.lead, Scheme.suffix])

-- A unique constraint says what it is in front of its columns, and the others say it behind theirs.
-- The names of the columns can make up for the difference.
def Meets (a b : Demand) : Prop :=
  a.scheme ≠ .unique ∧ b.scheme = .unique ∧
    ∃ x ∈ a.stem, ∃ y ∈ b.stem, x ++ a.scheme.suffix = "unique_" ++ y

-- The derived names say the same about what is demanded and about columns, or they happen to be
-- spelled alike.
def Clashes (a b : Demand) : Prop :=
  a.scheme = b.scheme ∧ a.stem = b.stem ∨ a.Meets b ∨ b.Meets a

theorem exists_stem {b : Demand} (h : b.scheme = .unique) : ∃ y, b.stem = some y := by
  cases b <;> simp_all [scheme, stem]

theorem ending_of_unique {b : Demand} (h : b.scheme = .unique) {y : String} (hy : b.stem = some y) :
    b.ending = "_" ++ ("unique_" ++ y) := by
  rw [ending, h, hy, ← String.toList_inj]
  simp [spelledStem, Scheme.lead, Scheme.suffix]

theorem ending_of_ne_unique {a : Demand} (h : a.scheme ≠ .unique) :
    a.ending = spelledStem a.stem ++ a.scheme.suffix := by
  rw [ending]
  cases hscheme : a.scheme <;> simp_all [Scheme.lead]

theorem ending_eq_iff_meets {a b : Demand} (ha : a.scheme ≠ .unique) (hb : b.scheme = .unique) :
    a.ending = b.ending ↔ a.Meets b := by
  obtain ⟨y, hy⟩ := exists_stem hb
  rw [ending_of_ne_unique ha, ending_of_unique hb hy]
  cases hstem : a.stem with
  | none =>
      have hmeets : ¬a.Meets b := by
        rintro ⟨-, -, x, hx, -⟩
        simp [hstem] at hx
      refine iff_of_false (fun h => ?_) hmeets
      have hlead : "_u".toList <+: a.scheme.suffix.toList := by
        have htext := congrArg String.toList h
        simp only [spelledStem, Option.elim_none, String.toList_append] at htext
        exact ⟨"nique_".toList ++ y.toList, htext.symm⟩
      revert hlead
      cases a.scheme <;> decide
  | some x =>
      have hspelled : spelledStem (some x) = "_" ++ x := rfl
      rw [hspelled, String.append_assoc, String.append_right_inj]
      simp [Meets, ha, hb, hstem, hy]

theorem ending_eq_iff {a b : Demand} : a.ending = b.ending ↔ a.Clashes b := by
  have hmeets {a b : Demand} (ha : a.scheme = .unique) : ¬a.Meets b := fun h => h.1 ha
  have hmeets' {a b : Demand} (hb : b.scheme ≠ .unique) : ¬a.Meets b := fun h => hb h.2.1
  by_cases ha : a.scheme = .unique
  · by_cases hb : b.scheme = .unique
    · obtain ⟨x, hx⟩ := exists_stem ha
      obtain ⟨y, hy⟩ := exists_stem hb
      rw [ending_of_unique ha hx, ending_of_unique hb hy, String.append_right_inj,
        String.append_right_inj]
      simp [Clashes, hmeets ha, hmeets hb, ha, hb, hx, hy]
    · have hne : a.scheme ≠ b.scheme := fun heq => hb (heq ▸ ha)
      rw [eq_comm, ending_eq_iff_meets hb ha]
      simp [Clashes, hmeets ha, hne]
  · by_cases hb : b.scheme = .unique
    · have hne : a.scheme ≠ b.scheme := fun heq => ha (heq ▸ hb)
      rw [ending_eq_iff_meets ha hb]
      simp [Clashes, hmeets hb, hne]
    · rw [ending_of_ne_unique ha, ending_of_ne_unique hb]
      constructor
      · intro h
        obtain ⟨hscheme, hstem⟩ := Scheme.append_suffix_inj ha hb h
        exact .inl ⟨hscheme, spelledStem_inj hstem⟩
      · rintro (⟨hscheme, hstem⟩ | h | h)
        · rw [hscheme, hstem]
        · exact absurd h (hmeets' hb)
        · exact absurd h (hmeets' ha)

instance (a b : Demand) : Decidable (a.Clashes b) :=
  decidable_of_iff _ ending_eq_iff

theorem derivedName_eq_iff {a b : Demand} :
    a.derivedName d table = b.derivedName d table ↔ a.Clashes b := by
  rw [← ending_eq_iff]
  constructor
  · intro h
    have hnames := congrArg Ident.name h
    rwa [derivedName_eq, derivedName_eq, Ident.name_derived, Ident.name_derived,
      String.append_right_inj] at hnames
  · intro h
    rw [derivedName_eq, derivedName_eq, h]

theorem name_derivedName_eq_iff {a b : Demand} :
    (a.derivedName d table).name = (b.derivedName d table).name ↔ a.Clashes b := by
  rw [derivedName_eq, derivedName_eq, Ident.name_derived, Ident.name_derived,
    String.append_right_inj, ending_eq_iff]

end Demand

namespace DeclaredTable

-- The text declares the table like this.
structure WrittenIn (o : DeclaredTable) (d : Dialect) (x : String) (t : CreateTable) : Prop where
  reads : ∃ front v w, (Cursor.ofText d x).faces = front ++ Cursor.faces v ∧
    Parser.declaredTable d v = .ok o w
  table : o.table d = t

variable {x : String} {s₁ s₂ : Script} {t : CreateTable} {o : DeclaredTable}

theorem exists_writtenIn (h : Script.parse d x = .ok (s₁ ++ .createTable t :: s₂)) :
    ∃ o : DeclaredTable, o.WrittenIn d x t := by
  obtain ⟨front, v, w, hfront, hcreated, -⟩ := Parser.parse_split h
  obtain ⟨o, hread, htable⟩ := Parser.createTable_eq_ok hcreated
  exact ⟨o, ⟨front, v, w, hfront, hread⟩, htable⟩

theorem WrittenIn.constraints (h : o.WrittenIn d x t) :
    t.constraints = o.declarations.map (Declaration.constraint d t.name) := by
  rw [← h.table]
  exact constraints_table d o

-- The first constraint with a name is the one that is found by it.
theorem WrittenIn.constraint?_eq_some (h : o.WrittenIn d x t) {front back : List Declaration}
    {c : Declaration} (hc : o.declarations = front ++ c :: back)
    (hfront : ∀ a ∈ front, (a.constraint d t.name).name.name ≠ (c.constraint d t.name).name.name) :
    t.constraint? (c.constraint d t.name).name.name = some (c.constraint d t.name) := by
  rw [CreateTable.constraint?, h.constraints, hc, List.map_append, List.map_cons,
    List.find?_append, List.find?_eq_none.mpr, Option.none_or, List.find?_cons_of_pos]
  · exact beq_self_eq_true _
  · intro b hb
    obtain ⟨a, ha, rfl⟩ := List.mem_map.mp hb
    simpa using hfront a ha

-- The table as it is declared behind the first tokens of the text.
def readBehind (d : Dialect) (n : Nat) (x : String) : Option DeclaredTable :=
  match Parser.declaredTable d { Cursor.ofText d x with ahead := (Cursor.ofText d x).ahead.drop n } with
  | .ok o _ => some o
  | .error _ _ => none

theorem WrittenIn.of_readBehind {n : Nat} (h : readBehind d n x = some o) (ht : o.table d = t) :
    o.WrittenIn d x t := by
  refine ⟨?_, ht⟩
  unfold readBehind at h
  split at h
  · rename_i w hread
    cases h
    refine ⟨((Cursor.ofText d x).ahead.take n).map Token.face, _, w, ?_, hread⟩
    rw [Cursor.faces, Cursor.faces, ← List.map_append, List.take_append_drop]
  · cases h

-- Two checks of one column get one name, and only the first one is found by it.
theorem two_checks_of_a_column :
    let x := "CREATE TABLE t (a INT CHECK (a > 0) CHECK (a < 9));"
    ∃ (t : CreateTable) (o : DeclaredTable) (a b : Declaration),
      Script.parse .postgres x = .ok [.createTable t] ∧ o.WrittenIn .postgres x t ∧
      o.declarations = [a, b] ∧ a.name = none ∧ b.name = none ∧
      (a.constraint .postgres t.name).definition ≠ (b.constraint .postgres t.name).definition ∧
      (a.constraint .postgres t.name).name = (b.constraint .postgres t.name).name ∧
      t.constraint? (b.constraint .postgres t.name).name.name =
        some (a.constraint .postgres t.name) := by
  intro x
  let body (op n : String) : Expr := ⟨[.bare "a", .bare op, .bare n]⟩
  let a : Declaration := ⟨none, .check (body ">" "0") (some "a")⟩
  let b : Declaration := ⟨none, .check (body "<" "9") (some "a")⟩
  let o : DeclaredTable := ⟨false, .ofIdent (.bare "t"),
    [.column (.bare "a") ⟨"INT", [], [], 0⟩ [.constraint a, .constraint b]], []⟩
  have hread : readBehind .postgres 2 x = some o := by decide +kernel
  exact ⟨o.table .postgres, o, a, b, by decide +kernel, .of_readBehind hread rfl, rfl, rfl, rfl,
    by decide +kernel, by decide +kernel, by decide +kernel⟩

-- The names that constraints get are the same for these reasons only. A constraint is found by the
-- name that it gets if nothing in front of it has got the same name.
theorem derived_names (h : Script.parse d x = .ok (s₁ ++ .createTable t :: s₂)) :
    (∃ o : DeclaredTable, o.WrittenIn d x t) ∧ ∀ o : DeclaredTable, o.WrittenIn d x t →
      t.constraints = o.declarations.map (Declaration.constraint d t.name) ∧
      (∀ a ∈ o.declarations, ∀ b ∈ o.declarations, a.name = none → b.name = none →
        ((a.constraint d t.name).name = (b.constraint d t.name).name ↔
          a.demand.Clashes b.demand)) ∧
      ∀ front c back, o.declarations = front ++ c :: back → c.name = none →
        (∀ a ∈ front, (a.name = none → ¬a.demand.Clashes c.demand) ∧
          ∀ name ∈ a.name, name.name ≠ (c.constraint d t.name).name.name) →
        t.constraint? (c.constraint d t.name).name.name = some (c.constraint d t.name) := by
  refine ⟨exists_writtenIn h, fun o ho => ⟨ho.constraints, fun a _ b _ ha hb => ?_, ?_⟩⟩
  · rw [Declaration.constraint, Declaration.constraint, ha, hb]
    exact Demand.derivedName_eq_iff
  · intro front c back hc hname hfront
    refine ho.constraint?_eq_some hc fun a ha heq => ?_
    obtain ⟨hderived, hwritten⟩ := hfront a ha
    cases hk : a.name with
    | some name =>
        refine hwritten name hk ?_
        rw [← heq, Declaration.constraint, hk, Option.getD_some]
    | none =>
        rw [Declaration.constraint, Declaration.constraint, hk, hname] at heq
        exact hderived hk (Demand.name_derivedName_eq_iff.mp heq)

-- The unique constraint is found behind a key and two checks, one of which is named in the text.
theorem derived_names_behind_checks :
    let x := "CREATE TABLE t (a INT PRIMARY KEY CHECK (a > 0), CONSTRAINT c CHECK (a < 9), UNIQUE (a));"
    ∃ (t : CreateTable) (o : DeclaredTable), Script.parse .postgres x = .ok [.createTable t] ∧
      o.WrittenIn .postgres x t ∧ o.declarations.length = 4 ∧
      (∀ a ∈ o.declarations, ∀ b ∈ o.declarations, a.name = none → b.name = none →
        ((a.constraint .postgres t.name).name = (b.constraint .postgres t.name).name ↔
          a.demand.Clashes b.demand)) ∧
      t.constraint? "t_unique_a" =
        some ⟨.bare "t_unique_a", .unique [.ascending (.bare "a")]⟩ := by
  intro x
  let body (op n : String) : Expr := ⟨[.bare "a", .bare op, .bare n]⟩
  let key : Declaration := ⟨none, .primaryKey [.ascending (.bare "a")]⟩
  let first : Declaration := ⟨none, .check (body ">" "0") (some "a")⟩
  let second : Declaration := ⟨some (.bare "c"), .check (body "<" "9") (some "a")⟩
  let unique : Declaration := ⟨none, .unique [.ascending (.bare "a")]⟩
  let o : DeclaredTable := ⟨false, .ofIdent (.bare "t"),
    [.column (.bare "a") ⟨"INT", [], [], 0⟩ [.constraint key, .constraint first],
      .constraint second, .constraint unique], []⟩
  have h : Script.parse .postgres x = .ok ([] ++ .createTable (o.table .postgres) :: []) := by
    decide +kernel
  have hread : readBehind .postgres 2 x = some o := by decide +kernel
  have ho : o.WrittenIn .postgres x (o.table .postgres) := .of_readBehind hread rfl
  obtain ⟨-, hclashes, hfound⟩ := (derived_names h).2 o ho
  have hname : unique.constraint .postgres (o.table .postgres).name =
      ⟨.bare "t_unique_a", .unique [.ascending (.bare "a")]⟩ := by decide +kernel
  have hlookup := hfound [key, first, second] unique [] rfl rfl (by decide +kernel)
  rw [hname] at hlookup
  exact ⟨o.table .postgres, o, h, ho, rfl, hclashes, hlookup⟩

end DeclaredTable

end SchemaDiff
