import SchemaDiff.Proofs.Catalog.Surroundings
import SchemaDiff.Proofs.Migration.Unhinted

namespace SchemaDiff.Migration.TablePair

open Surroundings

variable {p : TablePair} {s : Surroundings} {columns : List (String × ColumnState)}
  {constraints : List Constraint}

-- The name of the table that all statements of the pair are about.
abbrev table (p : TablePair) : String := p.new.name.identity

-- The members that pass a test, each for itself.
theorem flatMap_ite {α : Type} (f : α → Bool) (xs : List α) :
    (xs.flatMap fun x => if f x then [x] else []) = xs.filter f := by
  induction xs with
  | nil => rfl
  | cons x xs ih => by_cases hx : f x = true <;> simp [hx, ih]

theorem map_filter_eq_flatMap {α β : Type} (f : α → Bool) (g : α → β) (xs : List α) :
    (xs.filter f).map g = xs.flatMap fun x => if f x then [g x] else [] := by
  induction xs with
  | nil => rfl
  | cons x xs ih => by_cases hx : f x = true <;> simp [hx, ih]

-- Where every member has a name of its own, searching a name and having it is the same.
theorem find?_name_eq_some {α κ : Type} [BEq κ] [LawfulBEq κ] {name : α → κ} {xs : List α}
    (h : (xs.map name).Nodup) {n : κ} {x : α} :
    xs.find? (name · == n) = some x ↔ x ∈ xs ∧ name x = n := by
  constructor
  · intro hf
    exact ⟨List.mem_of_find?_eq_some hf, by simpa using List.find?_some hf⟩
  · rintro ⟨hx, rfl⟩
    obtain ⟨y, hy⟩ := Option.isSome_iff_exists.mp
      (List.find?_isSome.mpr ⟨x, hx, by simp⟩ : (xs.find? (name · == name x)).isSome)
    have hname : name y = name x := by simpa using List.find?_some hy
    rw [hy, List.inj_on_of_nodup_map h (List.mem_of_find?_eq_some hy) hx hname]

section Constraints

theorem run_dropConstraint (ht : p.table ∉ s.tablesLeft.map Prod.fst) {l r : List Constraint}
    {c : Constraint} (hl : c.name.name ∉ l.map (·.name.name))
    (hr : c.name.name ∉ r.map (·.name.name)) (hc : s.Avoids c) :
    Catalog.run (Step.statements (p.dropConstraint c))
        (s.around p.table columns (l ++ c :: r)) =
      some (s.around p.table columns (l ++ r)) := by
  by_cases hi : c.isIndex = true
  · simp only [dropConstraint, hi, if_true, Step.statements_announce, Catalog.run_singleton,
      Catalog.exec, Bool.false_and]
    refine dropIndex_around hi hl hr hc ?_
    by_cases hd : p.dialect.dropsIndexOnTable = true <;> simp [hd, table]
  · have hi : c.isIndex = false := by simpa using hi
    simp only [dropConstraint, hi, Bool.false_eq_true, if_false, alter, Step.statements_alter,
      Catalog.run_singleton, Catalog.exec, Catalog.alterTable]
    exact dropConstraint_around ht hi hl hr

theorem run_addConstraint (ht : p.table ∉ s.tablesLeft.map Prod.fst) {l r : List Constraint}
    {c : Constraint} (hl : c.name.name ∉ l.map (·.name.name))
    (hr : c.name.name ∉ r.map (·.name.name)) (hc : s.Avoids c) :
    Catalog.run (Step.statements (p.addConstraint c)) (s.around p.table columns (l ++ r)) =
      some (s.around p.table columns (l ++ c :: r)) := by
  rw [← addConstraint_around ht hl hr hc]
  cases hrule : c.rule <;>
    simp [addConstraint, hrule, alter, Catalog.exec, Catalog.alterTable, Catalog.addConstraint,
      IndexState.of, IndexState.inline, ObjectName.ofIdent, ObjectName.identity]

-- Whether an old constraint stays as it is.
def keeps (p : TablePair) (old : Constraint) : Bool :=
  (p.new.constraint? old.name.name).any fun new => new.definition == old.definition

-- Whether a new constraint was there before.
def kept (p : TablePair) (new : Constraint) : Bool :=
  p.old.constraints.any fun old =>
    old.name.name == new.name.name && new.definition == old.definition

def constraintStatements (p : TablePair) (old : Constraint) : Script :=
  if p.keeps old then [] else Step.statements (p.dropConstraint old)

theorem statements_dropConstraintSteps (h : p.Unhinted) :
    Step.statements p.dropConstraintSteps = p.old.constraints.flatMap p.constraintStatements := by
  rw [dropConstraintSteps, Step.statements_flatMap, h.oldConstraints_eq]
  refine List.flatMap_congr fun old _ => ?_
  simp only [changed?, h.counterpart?_eq, constraintStatements, keeps]
  rcases Option.eq_none_or_eq_some (p.new.constraint? old.name.name) with hn | ⟨new, hn⟩
  · simp [hn]
  · by_cases hd : new.definition = old.definition <;> simp [hn, Option.filter, hd]

theorem run_dropConstraintSteps (columns : List (String × ColumnState)) (h : p.Unhinted)
    (ht : p.table ∉ s.tablesLeft.map Prod.fst)
    (hnames : (p.old.constraints.map (·.name.name)).Nodup)
    (hs : ∀ c ∈ p.old.constraints, s.Avoids c) :
    Catalog.run (Step.statements p.dropConstraintSteps)
        (s.around p.table columns p.old.constraints) =
      some (s.around p.table columns (p.old.constraints.filter p.keeps)) := by
  rw [statements_dropConstraintSteps h, ← flatMap_ite]
  nth_rewrite 2 [← List.flatMap_singleton' p.old.constraints]
  refine Catalog.run_named (s.around p.table columns) _ _ _ (·.name.name) (·.name.name) _ hnames
    (by simp) (by intro c; split <;> simp) fun c hc l r hl hr => ?_
  by_cases hk : p.keeps c = true
  · simp [constraintStatements, hk]
  · simpa [constraintStatements, hk] using run_dropConstraint ht hl hr (hs c hc)

theorem kept_iff {new : Constraint} : p.kept new = true ↔
    ∃ old ∈ p.old.constraints, old.name.name = new.name.name ∧ new.definition = old.definition := by
  simp [kept]

theorem keeps_iff (hnew : (p.new.constraints.map (·.name.name)).Nodup) {old : Constraint} :
    p.keeps old = true ↔ ∃ new ∈ p.new.constraints, new.name.name = old.name.name ∧
      new.definition = old.definition := by
  have hfind : ∀ {c : Constraint}, p.new.constraint? old.name.name = some c ↔
      c ∈ p.new.constraints ∧ c.name.name = old.name.name := find?_name_eq_some hnew
  simp [keeps, Option.any_eq_true, hfind, and_assoc]

theorem wasChanged_iff (h : p.Unhinted) (hnew : (p.new.constraints.map (·.name.name)).Nodup)
    {new : Constraint} (hm : new ∈ p.new.constraints) : p.wasChanged new = true ↔
    ∃ old ∈ p.old.constraints, old.name.name = new.name.name ∧ new.definition ≠ old.definition := by
  have hfind : ∀ {name : String} {c : Constraint}, p.new.constraint? name = some c ↔
      c ∈ p.new.constraints ∧ c.name.name = name := find?_name_eq_some hnew
  simp only [wasChanged, h.oldConstraints_eq, List.any_eq_true, List.mem_filterMap, changed?,
    h.counterpart?_eq, Option.filter_eq_some_iff, hfind, beq_iff_eq, bne_iff_ne]
  constructor
  · rintro ⟨c, ⟨old, hold, ⟨hc, hname⟩, hdef⟩, heq⟩
    obtain rfl : c = new := List.inj_on_of_nodup_map hnew hc hm (congrArg Ident.name heq)
    exact ⟨old, hold, hname.symm, hdef⟩
  · rintro ⟨old, hold, hname, hdef⟩
    exact ⟨new, ⟨old, hold, ⟨hm, hname.symm⟩, hdef⟩, rfl⟩

-- A new constraint is added unless it was there before.
theorem adds_eq (h : p.Unhinted) (hold : (p.old.constraints.map (·.name.name)).Nodup)
    (hnew : (p.new.constraints.map (·.name.name)).Nodup) {new : Constraint}
    (hm : new ∈ p.new.constraints) : (!p.existed new || p.wasChanged new) = !p.kept new := by
  have hexisted : p.existed new = true ↔
      ∃ old ∈ p.old.constraints, old.name.name = new.name.name := by
    simp [h.existed_eq]
  have hchanged := wasChanged_iff h hnew hm
  by_cases hk : p.kept new = true
  · obtain ⟨old, ho, hname, hdef⟩ := kept_iff.mp hk
    have he : p.existed new = true := hexisted.mpr ⟨old, ho, hname⟩
    have hc : p.wasChanged new = false := by
      by_contra hc
      obtain ⟨other, hother, hon, hod⟩ := hchanged.mp (by simpa using hc)
      obtain rfl : other = old := List.inj_on_of_nodup_map hold hother ho (hon.trans hname.symm)
      exact hod hdef
    simp [hk, he, hc]
  · by_cases he : p.existed new = true
    · obtain ⟨old, ho, hname⟩ := hexisted.mp he
      have hc : p.wasChanged new = true :=
        hchanged.mpr ⟨old, ho, hname, fun hdef => hk (kept_iff.mpr ⟨old, ho, hname, hdef⟩)⟩
      simp [hk, hc]
    · simp [hk, he]

-- What stays of the old constraints is what was there of the new ones.
theorem around_keeps_eq (columns : List (String × ColumnState))
    (hold : (p.old.constraints.map (·.name.name)).Nodup)
    (hnew : (p.new.constraints.map (·.name.name)).Nodup)
    (hsame : ∀ old ∈ p.old.constraints, ∀ new ∈ p.new.constraints, Constraint.Same old new) :
    s.around p.table columns (p.old.constraints.filter p.keeps) =
      s.around p.table columns (p.new.constraints.filter p.kept) := by
  have hmem : ∀ {β : Type} (f : Constraint → Option (String × β)),
      (∀ c e, f c = some e → e.1 = c.name.name) →
      (∀ old ∈ p.old.constraints, ∀ new ∈ p.new.constraints,
        new.name.name = old.name.name → new.definition = old.definition → f old = f new) →
      Store.ofList ((p.old.constraints.filter p.keeps).filterMap f) =
        Store.ofList ((p.new.constraints.filter p.kept).filterMap f) := by
    intro β f hname hf
    refine Store.ofList_congr
      (Store.nodup_map_filterMap _ hname ((List.filter_sublist.map _).nodup hold))
      (Store.nodup_map_filterMap _ hname ((List.filter_sublist.map _).nodup hnew)) fun e => ?_
    simp only [List.mem_filterMap, List.mem_filter]
    constructor
    · rintro ⟨old, ⟨ho, hk⟩, he⟩
      obtain ⟨new, hn, hnn, hd⟩ := (keeps_iff hnew).mp hk
      exact ⟨new, ⟨hn, kept_iff.mpr ⟨old, ho, hnn.symm, hd⟩⟩, hf old ho new hn hnn hd ▸ he⟩
    · rintro ⟨new, ⟨hn, hk⟩, he⟩
      obtain ⟨old, ho, hnn, hd⟩ := kept_iff.mp hk
      exact ⟨old, ⟨ho, (keeps_iff hnew).mpr ⟨new, hn, hnn.symm, hd⟩⟩, hf old ho new hn hnn.symm hd ▸ he⟩
  refine around_constraints_congr
    (hmem _ (fun _ _ => Constraint.entryOf?_name) fun old ho new hn hnn hd => ?_)
    (hmem _ (fun _ _ => Constraint.indexEntryOf?_name) fun old ho new hn hnn hd => ?_)
  · exact ((hsame old ho new hn) hnn.symm hd.symm).1
  · exact ((hsame old ho new hn) hnn.symm hd.symm).2 p.table

theorem run_addConstraintSteps (columns : List (String × ColumnState)) (h : p.Unhinted)
    (ht : p.table ∉ s.tablesLeft.map Prod.fst)
    (hold : (p.old.constraints.map (·.name.name)).Nodup)
    (hnew : (p.new.constraints.map (·.name.name)).Nodup)
    (hs : ∀ c ∈ p.new.constraints, s.Avoids c) :
    Catalog.run (Step.statements p.addConstraintSteps)
        (s.around p.table columns (p.new.constraints.filter p.kept)) =
      some (s.around p.table columns p.new.constraints) := by
  rw [addConstraintSteps, Step.statements_flatMap, ← flatMap_ite]
  nth_rewrite 3 [← List.flatMap_singleton' p.new.constraints]
  refine Catalog.run_named (s.around p.table columns) _ _ _ (·.name.name) (·.name.name) _ hnew
    (by intro c; split <;> simp) (by simp) fun c hc l r hl hr => ?_
  rw [adds_eq h hold hnew hc]
  by_cases hk : p.kept c = true
  · simp [hk]
  · simpa [hk] using run_addConstraint ht hl hr (hs c hc)

end Constraints

section Columns

variable {l r : List (String × ColumnState)} {old new : Column} {column : ColumnState}

theorem run_changeColumn (ht : p.table ∉ s.tablesLeft.map Prod.fst)
    (hl : new.name.name ∉ l.map Prod.fst) (change : ColumnChange) :
    Catalog.run (Step.statements (p.changeColumn new change))
        (s.around p.table (l ++ (new.name.name, column) :: r) constraints) =
      some (s.around p.table (l ++ (new.name.name, column.change change) :: r) constraints) := by
  simp only [changeColumn, alter, Step.statements_alter, Catalog.run_singleton, Catalog.exec,
    Catalog.alterTable]
  exact changeColumn_around ht hl fun column => column.change change

theorem run_modifyColumn (ht : p.table ∉ s.tablesLeft.map Prod.fst)
    (hl : new.name.name ∉ l.map Prod.fst) :
    Catalog.run (Step.statements (p.alter (.modifyColumn new)))
        (s.around p.table (l ++ (new.name.name, column) :: r) constraints) =
      some (s.around p.table (l ++ new.entry :: r) constraints) := by
  simp only [alter, Step.statements_alter, Catalog.run_singleton, Catalog.exec,
    Catalog.alterTable]
  exact changeColumn_around ht hl fun _ => .of new

def typeSteps (p : TablePair) (old new : Column) : List Step :=
  if old.dataType.sql = new.dataType.sql then [] else p.changeColumn new (.setDataType new.dataType)

theorem run_typeSteps (ht : p.table ∉ s.tablesLeft.map Prod.fst)
    (hl : new.name.name ∉ l.map Prod.fst) (hc : column.dataType = old.dataType.sql) :
    Catalog.run (Step.statements (p.typeSteps old new))
        (s.around p.table (l ++ (new.name.name, column) :: r) constraints) =
      some (s.around p.table
        (l ++ (new.name.name, { column with dataType := new.dataType.sql }) :: r) constraints) := by
  unfold typeSteps
  split
  · rename_i he
    rw [← he, ← hc]
    rfl
  · exact run_changeColumn ht hl _

theorem run_defaultSteps (ht : p.table ∉ s.tablesLeft.map Prod.fst)
    (hl : new.name.name ∉ l.map Prod.fst) (hc : column.default = old.default.map Expr.identity) :
    Catalog.run (Step.statements (p.defaultSteps old new))
        (s.around p.table (l ++ (new.name.name, column) :: r) constraints) =
      some (s.around p.table
        (l ++ (new.name.name, { column with default := new.default.map Expr.identity }) :: r)
        constraints) := by
  unfold defaultSteps
  split
  · rename_i he
    rw [← he, ← hc]
    rfl
  · rw [run_changeColumn ht hl]
    cases new.default <;> rfl

theorem run_nullSteps (ht : p.table ∉ s.tablesLeft.map Prod.fst)
    (hl : new.name.name ∉ l.map Prod.fst) (hc : column.notNull = old.notNull) :
    Catalog.run (Step.statements (p.nullSteps old new))
        (s.around p.table (l ++ (new.name.name, column) :: r) constraints) =
      some (s.around p.table
        (l ++ (new.name.name, { column with notNull := new.notNull }) :: r) constraints) := by
  unfold nullSteps
  split
  · rename_i he
    rw [← he, ← hc]
    rfl
  · rw [run_changeColumn ht hl]
    cases new.notNull <;> rfl

-- Where there is an action for each attribute, there is none for the automatic values.
theorem run_alterColumnStep (ht : p.table ∉ s.tablesLeft.map Prod.fst)
    (hl : new.name.name ∉ l.map Prod.fst)
    (hauto : p.dialect.alterColumnStyle = .standard → old.autoIncrement = new.autoIncrement) :
    Catalog.run (Step.statements (p.alterColumnStep old new))
        (s.around p.table (l ++ (new.name.name, .of old) :: r) constraints) =
      some (s.around p.table (l ++ new.entry :: r) constraints) := by
  unfold alterColumnStep
  split
  · by_cases hm : needsModify old new = true
    · rw [if_pos hm]
      exact run_modifyColumn ht hl
    · rw [if_neg hm, run_defaultSteps ht hl rfl]
      simp only [needsModify, Bool.or_eq_true, bne_iff_ne, ne_eq, not_or, not_not] at hm
      obtain ⟨⟨htype, hnull⟩, hincrement⟩ := hm
      simp only [Column.entry, ColumnState.of, htype, hnull, hincrement]
  · rename_i hstyle
    rw [if_neg (by simp [hauto hstyle])]
    change Catalog.run (Step.statements (p.typeSteps old new ++ p.defaultSteps old new ++
      p.nullSteps old new)) _ = _
    rw [Step.statements_append, Step.statements_append]
    have hentry : new.entry = (new.name.name, ⟨new.dataType.sql, new.notNull,
        new.default.map Expr.identity, old.autoIncrement⟩) := by
      rw [hauto hstyle]
      rfl
    rw [hentry]
    exact Catalog.run_append_of (Catalog.run_append_of (run_typeSteps ht hl rfl)
      (run_defaultSteps ht hl rfl)) (run_nullSteps ht hl rfl)

theorem run_dropColumnSteps (constraints : List Constraint) (h : p.Unhinted)
    (ht : p.table ∉ s.tablesLeft.map Prod.fst)
    (hold : (p.old.columns.map (·.name.name)).Nodup) :
    Catalog.run (Step.statements p.dropColumnSteps)
        (s.around p.table (p.old.columns.map Column.entry) constraints) =
      some (s.around p.table (p.old.columns.flatMap fun c =>
        if (p.new.column? c.name.name).isSome then [c.entry] else []) constraints) := by
  rw [dropColumnSteps, Step.statements_flatMap, h.oldColumns_eq, List.map_eq_flatMap]
  refine Catalog.run_named (s.around p.table · constraints) _ _ _ Prod.fst (·.name.name) _ hold
    (by simp [Column.entry]) (by intro c; split <;> simp [Column.entry]) fun c hc l r hl hr => ?_
  by_cases hn : (p.new.column? c.name.name).isSome = true
  · simp [hn, Option.isNone_iff_eq_none, Option.isSome_iff_ne_none.mp hn]
  · simp only [Option.not_isSome_iff_eq_none.mp hn, Option.isNone_none, if_true, alter,
      Step.statements_alter, Catalog.run_singleton, Catalog.exec, Catalog.alterTable,
      Option.isSome_none, Bool.false_eq_true, if_false, List.append_nil, List.append_assoc,
      List.singleton_append]
    exact dropColumn_around ht hl hr

-- The columns that both versions have, as they are in the old one.
def sharedColumns (p : TablePair) : List (String × ColumnState) :=
  p.new.columns.flatMap fun new =>
    (p.old.column? new.name.name).toList.map fun old => (new.name.name, .of old)

theorem around_sharedColumns (hold : (p.old.columns.map (·.name.name)).Nodup)
    (hnew : (p.new.columns.map (·.name.name)).Nodup) :
    s.around p.table (p.old.columns.flatMap fun c =>
        if (p.new.column? c.name.name).isSome then [c.entry] else []) constraints =
      s.around p.table p.sharedColumns constraints := by
  have hfindOld : ∀ {name : String} {c : Column}, p.old.column? name = some c ↔
      c ∈ p.old.columns ∧ c.name.name = name := find?_name_eq_some hold
  have hfindNew : ∀ {name : String} {c : Column}, p.new.column? name = some c ↔
      c ∈ p.new.columns ∧ c.name.name = name := find?_name_eq_some hnew
  have hleft : (p.old.columns.flatMap fun c =>
      if (p.new.column? c.name.name).isSome then [c.entry] else []) =
      p.old.columns.filterMap fun c => (p.new.column? c.name.name).map fun _ => c.entry := by
    rw [List.filterMap_eq_flatMap_toList]
    refine List.flatMap_congr fun c _ => ?_
    cases p.new.column? c.name.name <;> rfl
  have hright : p.sharedColumns = p.new.columns.filterMap fun new =>
      (p.old.column? new.name.name).map fun old => (new.name.name, ColumnState.of old) := by
    rw [List.filterMap_eq_flatMap_toList]
    refine List.flatMap_congr fun c _ => ?_
    cases p.old.column? c.name.name <;> rfl
  rw [hleft, hright]
  refine around_columns_congr (Store.ofList_congr
    (Store.nodup_map_filterMap (·.name.name) ?_ hold)
    (Store.nodup_map_filterMap (·.name.name) ?_ hnew) fun e => ?_)
  · rintro c e he
    obtain ⟨_, -, rfl⟩ := Option.map_eq_some_iff.mp he
    rfl
  · rintro c e he
    obtain ⟨_, -, rfl⟩ := Option.map_eq_some_iff.mp he
    rfl
  simp only [List.mem_filterMap, Option.map_eq_some_iff, hfindOld, hfindNew]
  constructor
  · rintro ⟨old, ho, new, ⟨hn, hname⟩, rfl⟩
    exact ⟨new, hn, old, ⟨ho, hname.symm⟩, by simp [Column.entry, hname]⟩
  · rintro ⟨new, hn, old, ⟨ho, hname⟩, rfl⟩
    exact ⟨old, ho, new, ⟨hn, hname.symm⟩, by simp [Column.entry, hname]⟩

theorem run_alterColumnSteps (constraints : List Constraint) (h : p.Unhinted)
    (ht : p.table ∉ s.tablesLeft.map Prod.fst)
    (hnew : (p.new.columns.map (·.name.name)).Nodup)
    (hauto : ∀ new ∈ p.new.columns, ∀ old, p.old.column? new.name.name = some old →
      p.dialect.alterColumnStyle = .standard → old.autoIncrement = new.autoIncrement) :
    Catalog.run (Step.statements p.alterColumnSteps)
        (s.around p.table p.sharedColumns constraints) =
      some (s.around p.table (p.new.columns.flatMap fun new =>
        if (p.old.column? new.name.name).isSome then [new.entry] else []) constraints) := by
  rw [alterColumnSteps, Step.statements_flatMap, sharedColumns]
  refine Catalog.run_named (s.around p.table · constraints) _ _ _ Prod.fst (·.name.name) _ hnew
    (by simp) (by intro c; split <;> simp [Column.entry]) fun new hm l r hl hr => ?_
  rw [h.oldColumn?_eq]
  cases ho : p.old.column? new.name.name with
  | none => simp
  | some old => simpa using run_alterColumnStep ht hl (hauto new hm old ho)

theorem run_addColumnSteps (constraints : List Constraint) (h : p.Unhinted)
    (ht : p.table ∉ s.tablesLeft.map Prod.fst)
    (hnew : (p.new.columns.map (·.name.name)).Nodup) :
    Catalog.run (Step.statements p.addColumnSteps)
        (s.around p.table (p.new.columns.flatMap fun new =>
          if (p.old.column? new.name.name).isSome then [new.entry] else []) constraints) =
      some (s.around p.table (p.new.columns.map Column.entry) constraints) := by
  rw [addColumnSteps, Step.statements_flatMap, List.map_eq_flatMap]
  refine Catalog.run_named (s.around p.table · constraints) _ _ _ Prod.fst (·.name.name) _ hnew
    (by intro c; split <;> simp [Column.entry]) (by simp [Column.entry]) fun new hm l r hl hr => ?_
  rw [h.oldColumn?_eq]
  cases ho : p.old.column? new.name.name with
  | none => simpa [alter, Catalog.exec, Catalog.alterTable] using addColumn_around ht hl hr
  | some old => simp

end Columns

section Table

variable (h : p.Unhinted) (hr : Step.refusal? p.steps = none)

include hr in
theorem optionSteps_eq_nil : p.optionSteps = [] := by
  have hn : Step.refusal? p.optionSteps = none :=
    Step.refusal?_eq_none_of_mem hr fun step hm => by simp [steps, hm]
  unfold optionSteps at hn ⊢
  by_cases he : p.old.options.map TableOption.identity = p.new.options.map TableOption.identity
  · simp [he]
  · simp [he, Step.refusal?] at hn

include h hr in
theorem autoIncrement_eq {new old : Column} (hn : new ∈ p.new.columns)
    (ho : p.old.column? new.name.name = some old) (hs : p.dialect.alterColumnStyle = .standard) :
    old.autoIncrement = new.autoIncrement := by
  by_contra hne
  have hmem : Step.refuse (.autoIncrementChanged p.new.name new.name) ∈ p.alterColumnSteps := by
    refine List.mem_flatMap.mpr ⟨new, hn, ?_⟩
    rw [h.oldColumn?_eq, ho]
    simp [alterColumnStep, hs, hne]
  have hstep : Step.refuse (.autoIncrementChanged p.new.name new.name) ∈ p.steps := by
    simp [steps, columnSteps, hmem]
  exact Step.refusal?_eq_none_iff.mp hr _ hstep _ rfl

include h hr in
theorem statements_steps : Step.statements p.steps =
    Step.statements p.dropConstraintSteps ++ (Step.statements p.dropColumnSteps ++
      Step.statements p.alterColumnSteps ++ Step.statements p.addColumnSteps) ++
      Step.statements p.addConstraintSteps := by
  simp [steps, columnSteps, optionSteps_eq_nil hr, h.renameConstraintSteps_eq, h.columnRenames,
    Step.statements_append]

include h hr in
-- The statements of a pair turn the old version of the table into the new one, and leave all
-- else as it is.
theorem run_steps (ht : p.table ∉ s.tablesLeft.map Prod.fst)
    (holdColumns : (p.old.columns.map (·.name.name)).Nodup)
    (hnewColumns : (p.new.columns.map (·.name.name)).Nodup)
    (holdConstraints : (p.old.constraints.map (·.name.name)).Nodup)
    (hnewConstraints : (p.new.constraints.map (·.name.name)).Nodup)
    (hold : ∀ c ∈ p.old.constraints, s.Avoids c) (hnew : ∀ c ∈ p.new.constraints, s.Avoids c)
    (hsame : ∀ old ∈ p.old.constraints, ∀ new ∈ p.new.constraints, Constraint.Same old new) :
    Catalog.run (Step.statements p.steps)
        (s.around p.table (p.old.columns.map Column.entry) p.old.constraints) =
      some (s.around p.table (p.new.columns.map Column.entry) p.new.constraints) := by
  have hdropped := run_dropConstraintSteps (s := s) (p.old.columns.map Column.entry) h ht
    holdConstraints hold
  have hremoved := run_dropColumnSteps (s := s)
    (p.old.constraints.filter p.keeps) h ht holdColumns
  rw [around_sharedColumns holdColumns hnewColumns] at hremoved
  have haltered := run_alterColumnSteps (s := s)
    (p.old.constraints.filter p.keeps) h ht hnewColumns
    fun new hn old ho => autoIncrement_eq h hr hn ho
  have hcompleted := run_addColumnSteps (s := s)
    (p.old.constraints.filter p.keeps) h ht hnewColumns
  rw [around_keeps_eq (p.new.columns.map Column.entry) holdConstraints hnewConstraints
    hsame] at hcompleted
  have hadded := run_addConstraintSteps (s := s) (p.new.columns.map Column.entry) h ht
    holdConstraints hnewConstraints hnew
  rw [statements_steps h hr]
  exact Catalog.run_append_of (Catalog.run_append_of hdropped
    (Catalog.run_append_of (Catalog.run_append_of hremoved haltered) hcompleted)) hadded

end Table

end SchemaDiff.Migration.TablePair
