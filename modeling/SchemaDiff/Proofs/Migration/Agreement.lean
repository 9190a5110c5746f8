import SchemaDiff.Proofs.Migration.Passes
import SchemaDiff.Proofs.Migration.Rereading
import SchemaDiff.Proofs.Migration.TableAgreement

namespace SchemaDiff.Migration

open Step SchemaObject

namespace SchemaObject

def unquoted : SchemaObject → SchemaObject
  | table t => table t.unquoted
  | index i => index i.unquoted

theorem key_unquoted (o : SchemaObject) : o.unquoted.key = o.key := by
  cases o <;> rfl

theorem statement_unquoted (o : SchemaObject) : o.unquoted.statement = o.statement.unquoted := by
  cases o <;> rfl

theorem statement_injective : Function.Injective statement := by
  intro o o' h
  cases o <;> cases o' <;> cases h <;> rfl

end SchemaObject

-- Objects are told apart by their names, and columns and constraints within their table.
structure Unambiguous (s : Script) : Prop where
  keys : ((objects s).map key).Nodup
  columns : ∀ o ∈ objects s, o.columnNames.Nodup
  constraints : ∀ o ∈ objects s, o.constraintNames.Nodup

instance (s : Script) : Decidable (Unambiguous s) :=
  decidable_of_iff (((objects s).map key).Nodup ∧ (∀ o ∈ objects s, o.columnNames.Nodup) ∧
    ∀ o ∈ objects s, o.constraintNames.Nodup)
    ⟨fun h => ⟨h.1, h.2.1, h.2.2⟩, fun h => ⟨h.keys, h.columns, h.constraints⟩⟩

-- The schemas define the same objects, and every object in the same way.
structure SchemasAgree (before after : Script) : Prop where
  keys : ∀ k, k ∈ (objects before).map key ↔ k ∈ (objects after).map key
  tables : ∀ t u, .table t ∈ objects before → .table u ∈ objects after →
    t.name.identity = u.name.identity → Agrees t u
  indexes : ∀ i j, .index i ∈ objects before → .index j ∈ objects after →
    i.name.identity = j.name.identity → i.unquoted = j.unquoted

theorem objectRefusals_eq_nil {s : Script} (h : ∀ statement ∈ s, statement.Creates) :
    objectRefusals s = [] := by
  rw [objectRefusals, List.filterMap_eq_nil_iff]
  intro statement hs
  have hcreates := h statement hs
  cases statement with
  | createTable t => rfl
  | createIndex i => rfl
  | _ => exact absurd hcreates id

-- There is nothing to do when the schemas look the same, or else when nothing is planned.
theorem diff_eq_noDifference_iff {d : Dialect} {options : Options} {before after : Script} :
    diff d options (some before) (some after) = .error .noDifference ↔
      before.identity = after.identity ∨ Quiet (SchemaPair.steps ⟨d, options, before, after⟩) := by
  have hdiff : diff d options (some before) (some after) = .error .noDifference ↔
      Quiet (steps d options (some before) (some after)) := by
    rw [← result_eq_nil, diff]
    cases Step.result (steps d options (some before) (some after)) with
    | error refusal => simp
    | ok m => cases m <;> simp
  rw [hdiff, steps]
  split <;> simp [*]

namespace SchemaPair

variable {p : SchemaPair}

theorem isDropped_eq_false (h : p.options = .default) (hafter : ((objects p.after).map key).Nodup)
    {x : SchemaObject} : p.isDropped x = false ↔ ∃ y ∈ objects p.after, y.key = x.key ∧
      ∀ i j, x = .index i → y = .index j → i.identity = j.identity := by
  constructor
  · intro hd
    cases hn : p.new? x.key with
    | none => simp [isDropped, oldKey_eq h, hn] at hd
    | some y =>
        obtain ⟨hy, hkey⟩ := (SchemaPair.new?_eq_some hafter).mp hn
        refine ⟨y, hy, hkey, ?_⟩
        rintro i j rfl rfl
        simpa [isDropped, oldKey_eq h, hn, indexChanged_eq h] using hd
  · rintro ⟨y, hy, hkey, hsame⟩
    have hn := (SchemaPair.new?_eq_some hafter).mpr ⟨hy, hkey⟩
    cases x with
    | table t => simp [isDropped, oldKey_eq h, hn]
    | index i =>
        cases y with
        | table u => cases hkey
        | index j => simp [isDropped, oldKey_eq h, hn, indexChanged_eq h, hsame i j rfl rfl]

theorem quiet_steps (h : p.options = .default) (hbefore : ∀ s ∈ p.before, s.Creates)
    (hafter : ∀ s ∈ p.after, s.Creates) : Quiet p.steps ↔
      (∀ x ∈ objects p.before, p.isDropped x = false) ∧
      (∀ y ∈ objects p.after, (p.old? y.key).isSome) ∧
      ∀ y ∈ objects p.after, Quiet (p.alterSteps y) := by
  have hrefusals : p.refusals = [] := by
    simp [refusals, h, Options.default, objectRefusals_eq_nil hbefore, objectRefusals_eq_nil hafter]
  have hdrops : Quiet p.drops ↔ ∀ x ∈ objects p.before, p.isDropped x = false := by
    rw [drops, quiet_map_emit]
    simp [List.filter_eq_nil_iff]
  have hcreates : Quiet p.creates ↔ ∀ y ∈ objects p.after, (p.old? y.key).isSome := by
    rw [creates, quiet_map_emit]
    simp [List.filter_eq_nil_iff, Option.isSome_iff_ne_none]
  simp only [steps, quiet_append, hrefusals, renames_eq_nil h, quiet_nil, true_and, hdrops, hcreates,
    alters, quiet_flatMap, and_assoc]

-- A run without hints between two schemas that tell their objects apart.
structure Comparable (p : SchemaPair) : Prop where
  options : p.options = .default
  before : ∀ s ∈ p.before, s.Creates
  after : ∀ s ∈ p.after, s.Creates
  oldNames : Unambiguous p.before
  newNames : Unambiguous p.after

namespace Comparable

variable (h : p.Comparable)

include h

theorem old?_eq_some {k : ObjectKey} {x : SchemaObject} :
    p.old? k = some x ↔ x ∈ objects p.before ∧ x.key = k :=
  SchemaPair.old?_eq_some h.options h.oldNames.keys

theorem alterSteps_table {t u : CreateTable} (ht : .table t ∈ objects p.before)
    (hname : t.name.identity = u.name.identity) :
    p.alterSteps (.table u) = (p.tablePair t u).steps := by
  have hold : p.old? (SchemaObject.table u).key = some (.table t) :=
    h.old?_eq_some.mpr ⟨ht, congrArg ObjectKey.table hname⟩
  unfold alterSteps
  rw [hold]

theorem quiet_alterSteps_index {i j : CreateIndex} (hi : .index i ∈ objects p.before)
    (hname : i.name.identity = j.name.identity) :
    Quiet (p.alterSteps (.index j)) ↔ i.identity = j.identity := by
  have hold : p.old? (SchemaObject.index j).key = some (.index i) :=
    h.old?_eq_some.mpr ⟨hi, congrArg ObjectKey.index hname⟩
  unfold alterSteps
  rw [hold]
  by_cases hsame : i.identity = j.identity <;> simp [indexChanged_eq h.options, hsame]

-- Nothing is planned when both schemas have the same objects and nothing is planned for any of them.
theorem quiet_iff : Quiet p.steps ↔
    (∀ k, k ∈ (objects p.before).map key ↔ k ∈ (objects p.after).map key) ∧
    (∀ t u, .table t ∈ objects p.before → .table u ∈ objects p.after →
      t.name.identity = u.name.identity → Quiet (p.tablePair t u).steps) ∧
    ∀ i j, .index i ∈ objects p.before → .index j ∈ objects p.after →
      i.name.identity = j.name.identity → i.identity = j.identity := by
  rw [quiet_steps h.options h.before h.after]
  constructor
  · rintro ⟨hdrops, hcreates, halters⟩
    refine ⟨fun k => ⟨fun hk => ?_, fun hk => ?_⟩, fun t u ht hu hname => ?_,
      fun i j hi hj hname => ?_⟩
    · obtain ⟨x, hx, rfl⟩ := List.mem_map.mp hk
      obtain ⟨y, hy, hkey, -⟩ :=
        (isDropped_eq_false h.options h.newNames.keys).mp (hdrops x hx)
      exact hkey ▸ List.mem_map_of_mem hy
    · obtain ⟨y, hy, rfl⟩ := List.mem_map.mp hk
      obtain ⟨x, hx⟩ := Option.isSome_iff_exists.mp (hcreates y hy)
      obtain ⟨hmem, hkey⟩ := h.old?_eq_some.mp hx
      exact hkey ▸ List.mem_map_of_mem hmem
    · exact h.alterSteps_table ht hname ▸ halters _ hu
    · exact (h.quiet_alterSteps_index hi hname).mp (halters _ hj)
  · rintro ⟨hkeys, htables, hindexes⟩
    refine ⟨fun x hx => ?_, fun y hy => ?_, fun y hy => ?_⟩
    · obtain ⟨y, hy, hkey⟩ := List.mem_map.mp ((hkeys _).mp (List.mem_map_of_mem hx))
      refine (isDropped_eq_false h.options h.newNames.keys).mpr ⟨y, hy, hkey, ?_⟩
      rintro i j rfl rfl
      exact hindexes i j hx hy (ObjectKey.index.inj hkey).symm
    · obtain ⟨x, hx, hkey⟩ := List.mem_map.mp ((hkeys _).mpr (List.mem_map_of_mem hy))
      rw [h.old?_eq_some.mpr ⟨hx, hkey⟩]
      rfl
    · obtain ⟨x, hx, hkey⟩ := List.mem_map.mp ((hkeys _).mpr (List.mem_map_of_mem hy))
      cases y with
      | table u =>
          cases x with
          | index i => cases hkey
          | table t =>
              have hname := ObjectKey.table.inj hkey
              exact h.alterSteps_table hx hname ▸ htables t u hx hy hname
      | index j =>
          cases x with
          | table t => cases hkey
          | index i =>
              have hname := ObjectKey.index.inj hkey
              exact (h.quiet_alterSteps_index hx hname).mpr (hindexes i j hx hy hname)

-- Nothing is planned for two schemas that agree.
theorem quiet_of_agree (hagree : SchemasAgree p.before p.after) : Quiet p.steps := by
  refine h.quiet_iff.mpr ⟨hagree.keys, fun t u ht hu hname => ?_, fun i j hi hj hname => ?_⟩
  · exact TablePair.quiet_of_agrees (tablePair_unhinted h.options t u)
      (h.oldNames.constraints _ ht) (h.newNames.constraints _ hu) (h.oldNames.columns _ ht)
      (h.newNames.columns _ hu) (hagree.tables t u ht hu hname)
  · rw [← CreateIndex.identity_unquoted, hagree.indexes i j hi hj hname,
      CreateIndex.identity_unquoted]

end Comparable

-- Schemas of which every part can be read off its text without the quotes.
structure Readings (d : Dialect) (p : SchemaPair) : Prop extends Comparable p where
  oldReadable : ∀ s ∈ p.before, s.Readable d ∧ s.Clear d
  newReadable : ∀ s ∈ p.after, s.Readable d ∧ s.Clear d

namespace Readings

variable {d : Dialect} (h : p.Readings d)

include h

theorem mem_before {x : SchemaObject} (hx : x ∈ objects p.before) : x.statement ∈ p.before := by
  rw [← map_statement_objects h.before]
  exact List.mem_map_of_mem hx

theorem mem_after {x : SchemaObject} (hx : x ∈ objects p.after) : x.statement ∈ p.after := by
  rw [← map_statement_objects h.after]
  exact List.mem_map_of_mem hx

-- Nothing is planned for two schemas if and only if they agree.
theorem quiet_iff_agree : Quiet p.steps ↔ SchemasAgree p.before p.after := by
  refine ⟨fun hquiet => ?_, h.quiet_of_agree⟩
  obtain ⟨hkeys, htables, hindexes⟩ := h.quiet_iff.mp hquiet
  refine ⟨hkeys, fun t u ht hu hname => ?_, fun i j hi hj hname => ?_⟩
  · exact (TablePair.quiet_iff_agrees (tablePair_unhinted h.options t u)
      (h.oldNames.constraints _ ht) (h.newNames.constraints _ hu) (h.oldNames.columns _ ht)
      (h.newNames.columns _ hu) (h.oldReadable _ (h.mem_before ht))
      (h.newReadable _ (h.mem_after hu))).mp (htables t u ht hu hname)
  · exact (CreateIndex.unquoted_eq_iff (h.oldReadable _ (h.mem_before hi))
      (h.newReadable _ (h.mem_after hj))).mpr (hindexes i j hi hj hname)

-- Schemas that are one but for quotes agree.
theorem agree_of_unquoted (hsame : p.before.map Statement.unquoted = p.after.map Statement.unquoted) :
    SchemasAgree p.before p.after := by
  have hobjects : (objects p.before).map unquoted = (objects p.after).map unquoted := by
    refine List.map_injective_iff.mpr statement_injective ?_
    simp only [List.map_map, Function.comp_def, statement_unquoted]
    rw [← map_statement_objects h.before, ← map_statement_objects h.after, List.map_map,
      List.map_map] at hsame
    exact hsame
  have hkeys : (objects p.before).map key = (objects p.after).map key := by
    have hmap := congrArg (List.map key) hobjects
    simpa only [List.map_map, Function.comp_def, key_unquoted] using hmap
  have hcounterpart : ∀ x ∈ objects p.before, ∀ y ∈ objects p.after, x.key = y.key →
      x.unquoted = y.unquoted := by
    intro x hx y hy hkey
    obtain ⟨y', hy', hunquoted⟩ := List.mem_map.mp (hobjects ▸ List.mem_map_of_mem (f := unquoted) hx)
    have hkey' : y'.key = y.key := by
      rw [← y'.key_unquoted, hunquoted, x.key_unquoted, hkey]
    rw [← hunquoted, List.inj_on_of_nodup_map h.newNames.keys hy' hy hkey']
  refine ⟨fun k => by rw [hkeys], fun t u ht hu hname => ?_, fun i j hi hj hname => ?_⟩
  · exact .of_unquoted
      (SchemaObject.table.inj (hcounterpart _ ht _ hu (congrArg ObjectKey.table hname)))
  · exact SchemaObject.index.inj (hcounterpart _ hi _ hj (congrArg ObjectKey.index hname))

end Readings

end SchemaPair

-- Nothing is found to do between two schemas if and only if they agree.
theorem diff_noDifference_iff {d : Dialect} {before after : Script} (hbefore : Accepted d before)
    (hafter : Accepted d after) (holdNames : Unambiguous before) (hnewNames : Unambiguous after)
    (holdClear : ∀ s ∈ before, s.Clear d) (hnewClear : ∀ s ∈ after, s.Clear d) :
    diff d .default (some before) (some after) = .error .noDifference ↔
      SchemasAgree before after := by
  obtain ⟨⟨_, hreadBefore⟩, hcreatesBefore⟩ := hbefore
  obtain ⟨⟨_, hreadAfter⟩, hcreatesAfter⟩ := hafter
  have h : SchemaPair.Readings d ⟨d, .default, before, after⟩ :=
    { options := rfl
      before := hcreatesBefore
      after := hcreatesAfter
      oldNames := holdNames
      newNames := hnewNames
      oldReadable := fun s hs => ⟨Script.readable_of_parse hreadBefore s hs, holdClear s hs⟩
      newReadable := fun s hs => ⟨Script.readable_of_parse hreadAfter s hs, hnewClear s hs⟩ }
  rw [diff_eq_noDifference_iff, h.quiet_iff_agree, or_iff_right_iff_imp]
  intro hidentity
  exact h.agree_of_unquoted (Script.unquoted_of_identity
    (fun s hs => ⟨h.before s hs, h.oldReadable s hs⟩)
    (fun s hs => ⟨h.after s hs, h.newReadable s hs⟩) hidentity)

def intColumn (name : Ident) : Column :=
  ⟨name, ⟨"INT", [], [], 0⟩, false, none, false⟩

-- Ranges with a check and an index, for one order of the columns and one way to write `low`.
def ranges (low : Ident) (columns : List Column) : Script := [
  .createTable ⟨false, .ofIdent (.bare "ranges"), columns,
    [⟨.bare "ranges_low_check", .check ⟨[low, .bare "<", .bare "high"]⟩⟩], []⟩,
  .createIndex ⟨false, false, .ofIdent (.bare "i"), .ofIdent (.bare "ranges"), none,
    [.ascending low], none⟩]

-- The columns changed places and one of them got quotes, so the texts to compare differ.
theorem diff_noDifference_ranges :
    let before := ranges (.bare "low") [intColumn (.bare "low"), intColumn (.bare "high")]
    let after := ranges (.quoted '"' "low") [intColumn (.quoted '"' "high"), intColumn (.bare "low")]
    before.identity ≠ after.identity ∧
      diff .postgres .default (some before) (some after) = .error .noDifference ∧
        SchemasAgree before after := by
  have hdiff : diff .postgres .default
      (some (ranges (.bare "low") [intColumn (.bare "low"), intColumn (.bare "high")]))
      (some (ranges (.quoted '"' "low") [intColumn (.quoted '"' "high"), intColumn (.bare "low")])) =
        .error .noDifference := by
    decide +kernel
  refine ⟨by decide +kernel, hdiff, (diff_noDifference_iff ⟨⟨"CREATE TABLE ranges (low INT, high INT,
    CHECK (low < high)); CREATE INDEX i ON ranges (low)", by decide +kernel⟩, by decide⟩
    ⟨⟨"CREATE TABLE ranges (\"high\" INT, low INT,
    CHECK (\"low\" < high)); CREATE INDEX i ON ranges (\"low\")", by decide +kernel⟩, by decide⟩
    (by decide) (by decide) (by decide +kernel) (by decide +kernel)).mp hdiff⟩

def intTable (columns : List Ident) : Script := [
  .createTable ⟨false, .ofIdent (.bare "t"), columns.map intColumn, [], []⟩]

-- One column whose name reads like the end of one column and the start of the next.
theorem not_schemasAgree_comma :
    Script.parse .postgres "CREATE TABLE t (a INT, b INT);" =
        .ok (intTable [.bare "a", .bare "b"]) ∧
      Script.parse .postgres "CREATE TABLE t (\"a INT, b\" INT);" =
        .ok (intTable [.quoted '"' "a INT, b"]) ∧
      Unambiguous (intTable [.bare "a", .bare "b"]) ∧
      Unambiguous (intTable [.quoted '"' "a INT, b"]) ∧
      diff .postgres .default (some (intTable [.bare "a", .bare "b"]))
        (some (intTable [.quoted '"' "a INT, b"])) = .error .noDifference ∧
      ¬SchemasAgree (intTable [.bare "a", .bare "b"]) (intTable [.quoted '"' "a INT, b"]) := by
  refine ⟨by decide +kernel, by decide +kernel, by decide, by decide, by decide +kernel,
    fun hagree => ?_⟩
  have hcolumn := (hagree.tables _ _ (.head _) (.head _) rfl).column "a"
  exact absurd hcolumn (by decide)

end SchemaDiff.Migration
