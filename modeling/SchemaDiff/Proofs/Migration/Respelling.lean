import SchemaDiff.Proofs.Migration.Agreement

namespace SchemaDiff

-- The tables are the same but for quotes, and for the order of their columns and constraints.
structure CreateTable.Respelled (t u : CreateTable) : Prop where
  name : t.name.identity = u.name.identity
  columns : (t.columns.map Column.unquoted).Perm (u.columns.map Column.unquoted)
  constraints :
    (t.constraints.map Constraint.unquoted).Perm (u.constraints.map Constraint.unquoted)
  options : t.options.map TableOption.unquoted = u.options.map TableOption.unquoted

theorem Column.name_of_unquoted {c c' : Column} (h : c.unquoted = c'.unquoted) :
    c.name.name = c'.name.name :=
  congrArg (·.name.name) h

theorem Constraint.name_of_unquoted {c c' : Constraint} (h : c.unquoted = c'.unquoted) :
    c.name.name = c'.name.name :=
  congrArg (·.name.name) h

namespace Migration

open SchemaObject

theorem columnNames_perm {t u : CreateTable} (h : t.Respelled u) :
    (SchemaObject.table t).columnNames.Perm (SchemaObject.table u).columnNames := by
  have hnames := h.columns.map (·.name.name)
  rw [List.map_map, List.map_map] at hnames
  exact hnames

theorem constraintNames_perm {t u : CreateTable} (h : t.Respelled u) :
    (SchemaObject.table t).constraintNames.Perm (SchemaObject.table u).constraintNames := by
  have hnames := h.constraints.map (·.name.name)
  rw [List.map_map, List.map_map] at hnames
  exact hnames

theorem Agrees.of_respelled {t u : CreateTable} (h : t.Respelled u)
    (hcolumns : (SchemaObject.table t).columnNames.Nodup)
    (hconstraints : (SchemaObject.table t).constraintNames.Nodup) : Agrees t u where
  column := (find?_map_eq_iff hcolumns ((columnNames_perm h).nodup_iff.mp hcolumns)).mpr
    (matched_of_perm (fun _ _ => Column.name_of_unquoted) h.columns)
  constraint :=
    (find?_map_eq_iff hconstraints ((constraintNames_perm h).nodup_iff.mp hconstraints)).mpr
      (matched_of_perm (fun _ _ => Constraint.name_of_unquoted) h.constraints)
  options := h.options

namespace SchemaObject

-- The same object in other words.
inductive Respelled : SchemaObject → SchemaObject → Prop
  | table {t u : CreateTable} (h : t.Respelled u) : Respelled (.table t) (.table u)
  | index {i j : CreateIndex} (h : i.unquoted = j.unquoted) : Respelled (.index i) (.index j)

theorem Respelled.key_eq {x y : SchemaObject} (h : x.Respelled y) : x.key = y.key := by
  cases h with
  | table h => exact congrArg ObjectKey.table h.name
  | index h =>
      have hname := congrArg (fun i : CreateIndex => ObjectKey.index i.name.identity) h
      exact hname

theorem objects_map_statement (os : List SchemaObject) : objects (os.map statement) = os := by
  induction os with
  | nil => rfl
  | cons o os ih => cases o <;> exact congrArg (_ :: ·) ih

theorem creates_of_mem_statements {os : List SchemaObject} {s : Statement}
    (h : s ∈ os.map statement) : s.Creates := by
  obtain ⟨o, -, rfl⟩ := List.mem_map.mp h
  cases o <;> trivial

end SchemaObject

-- The schema with its objects in another order and in other words.
def Rearranged (before after : Script) : Prop :=
  ∃ old new, before.Perm (old.map statement) ∧ after = new.map statement ∧
    List.Forall₂ SchemaObject.Respelled old new

namespace Rearranged

variable {before after : Script}

theorem creates (h : Rearranged before after) :
    (∀ s ∈ before, s.Creates) ∧ ∀ s ∈ after, s.Creates := by
  obtain ⟨old, new, hperm, rfl, -⟩ := h
  exact ⟨fun s hs => creates_of_mem_statements (hperm.mem_iff.mp hs),
    fun s hs => creates_of_mem_statements hs⟩

-- The objects of one schema against those of the other, one by one.
theorem objects_forall₂ (h : Rearranged before after) : ∃ old, (objects before).Perm old ∧
    List.Forall₂ SchemaObject.Respelled old (objects after) := by
  obtain ⟨old, new, hperm, rfl, hrespelled⟩ := h
  have hobjects := hperm.filterMap ofStatement?
  refine ⟨old, ?_, (objects_map_statement new).symm ▸ hrespelled⟩
  exact (objects_map_statement old) ▸ hobjects

theorem keys_perm (h : Rearranged before after) :
    ((objects before).map key).Perm ((objects after).map key) := by
  obtain ⟨old, hperm, hrespelled⟩ := h.objects_forall₂
  have hkeys : old.map key = (objects after).map key := by
    rw [map_eq_map_iff]
    exact hrespelled.imp fun _ _ => Respelled.key_eq
  exact hkeys ▸ hperm.map key

theorem exists_of_mem (h : Rearranged before after) {y : SchemaObject} (hy : y ∈ objects after) :
    ∃ x ∈ objects before, x.Respelled y := by
  obtain ⟨old, hperm, hrespelled⟩ := h.objects_forall₂
  obtain ⟨x, hx, hsame⟩ := exists_of_forall₂ hrespelled hy
  exact ⟨x, hperm.mem_iff.mpr hx, hsame⟩

variable (h : Rearranged before after) (hnames : Unambiguous before)

include h hnames

theorem respelled_of_key_eq {x y : SchemaObject} (hx : x ∈ objects before) (hy : y ∈ objects after)
    (hkey : x.key = y.key) : x.Respelled y := by
  obtain ⟨x', hx', hsame⟩ := h.exists_of_mem hy
  rwa [List.inj_on_of_nodup_map hnames.keys hx hx' (hkey.trans hsame.key_eq.symm)]

theorem unambiguous : Unambiguous after where
  keys := h.keys_perm.nodup_iff.mp hnames.keys
  columns y hy := by
    obtain ⟨x, hx, hsame⟩ := h.exists_of_mem hy
    cases hsame with
    | table hsame => exact (columnNames_perm hsame).nodup_iff.mp (hnames.columns _ hx)
    | index hsame => exact List.nodup_nil
  constraints y hy := by
    obtain ⟨x, hx, hsame⟩ := h.exists_of_mem hy
    cases hsame with
    | table hsame => exact (constraintNames_perm hsame).nodup_iff.mp (hnames.constraints _ hx)
    | index hsame => exact List.nodup_nil

theorem agree : SchemasAgree before after where
  keys k := h.keys_perm.mem_iff
  tables t u ht hu hname := by
    cases h.respelled_of_key_eq hnames ht hu (congrArg ObjectKey.table hname) with
    | table hsame => exact .of_respelled hsame (hnames.columns _ ht) (hnames.constraints _ ht)
  indexes i j hi hj hname := by
    cases h.respelled_of_key_eq hnames hi hj (congrArg ObjectKey.index hname) with
    | index hsame => exact hsame

end Rearranged

-- Neither the order of a schema nor its quotes make a difference.
theorem diff_rearranged {before after : Script} (d : Dialect) (h : Rearranged before after)
    (hnames : Unambiguous before) :
    diff d .default (some before) (some after) = .error .noDifference := by
  have hcomparable : SchemaPair.Comparable ⟨d, .default, before, after⟩ :=
    { options := rfl
      before := h.creates.1
      after := h.creates.2
      oldNames := hnames
      newNames := h.unambiguous hnames }
  exact diff_eq_noDifference_iff.mpr (.inr (hcomparable.quiet_of_agree (h.agree hnames)))

def pairTable : CreateTable :=
  ⟨false, .ofIdent (.bare "t"), [intColumn (.bare "a"), intColumn (.bare "b")],
    [⟨.bare "c", .unique [.ascending (.bare "a")]⟩, ⟨.bare "d", .unique [.ascending (.bare "b")]⟩],
    []⟩

def respelledPairTable : CreateTable :=
  ⟨true, ⟨some (.bare "s"), .quoted '"' "t"⟩, [intColumn (.bare "b"), intColumn (.quoted '"' "a")],
    [⟨.bare "d", .unique [.ascending (.bare "b")]⟩,
      ⟨.quoted '"' "c", .unique [.ascending (.bare "a")]⟩], []⟩

def pairIndex : CreateIndex :=
  ⟨false, false, .ofIdent (.bare "i"), .ofIdent (.bare "t"), none, [.ascending (.bare "a")], none⟩

def respelledPairIndex : CreateIndex :=
  ⟨false, true, .ofIdent (.bare "i"), ⟨some (.bare "s"), .bare "t"⟩, none,
    [.ascending (.quoted '"' "a")], none⟩

-- The index comes first, columns and constraints change places, and names get quotes.
theorem diff_rearranged_pair :
    let before : Script := [.createTable pairTable, .createIndex pairIndex]
    let after : Script := [.createIndex respelledPairIndex, .createTable respelledPairTable]
    Script.parse .postgres "CREATE TABLE t (a INT, b INT, CONSTRAINT c UNIQUE (a),
      CONSTRAINT d UNIQUE (b)); CREATE INDEX i ON t (a)" = .ok before ∧
    Script.parse .postgres "CREATE INDEX IF NOT EXISTS i ON s.t (\"a\");
      CREATE TABLE IF NOT EXISTS s.\"t\" (b INT, \"a\" INT, CONSTRAINT d UNIQUE (b),
      CONSTRAINT \"c\" UNIQUE (a))" = .ok after ∧
    before.identity ≠ after.identity ∧ Rearranged before after ∧ Unambiguous before ∧
    diff .postgres .default (some before) (some after) = .error .noDifference := by
  have htable : pairTable.Respelled respelledPairTable :=
    ⟨by decide, by decide, by decide, by decide⟩
  have hindex : pairIndex.unquoted = respelledPairIndex.unquoted := by decide
  have hrearranged : Rearranged [.createTable pairTable, .createIndex pairIndex]
      [.createIndex respelledPairIndex, .createTable respelledPairTable] :=
    ⟨[.index pairIndex, .table pairTable], [.index respelledPairIndex, .table respelledPairTable],
      .swap _ _ _, rfl, .cons (.index hindex) (.cons (.table htable) .nil)⟩
  have hnames : Unambiguous [.createTable pairTable, .createIndex pairIndex] := by decide
  exact ⟨by decide +kernel, by decide +kernel, by decide +kernel, hrearranged, hnames,
    diff_rearranged .postgres hrearranged hnames⟩

end Migration

end SchemaDiff
