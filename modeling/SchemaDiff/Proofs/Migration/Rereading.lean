import SchemaDiff.Proofs.Migration.Convergence
import SchemaDiff.Proofs.Migration.Planned
import SchemaDiff.Proofs.Rereading

namespace SchemaDiff.Migration

variable {d : Dialect}

theorem readable_renameTable {table : ObjectName} (h : table.Readable d)
    (renames : List TableRename) : (renameTable d renames table).Readable d := by
  unfold renameTable
  split
  · exact ⟨h.schema, Ident.readable_derived d _⟩
  · exact h

theorem readable_renameColumn {column : Ident} (h : column.Readable d)
    (renames : List ColumnRename) : (renameColumn d renames column).Readable d := by
  unfold renameColumn
  split
  · exact Ident.readable_derived d _
  · exact h

namespace SchemaObject

def Readable (d : Dialect) (o : SchemaObject) : Prop :=
  o.statement.Readable d

theorem Readable.legible {o : SchemaObject} (h : o.Readable d) : o.statement.Legible d := by
  cases o with
  | table t => exact h
  | index i => exact CreateIndex.Readable.toParts h

theorem Readable.legible_drop {o : SchemaObject} (h : o.Readable d) (renames : List TableRename) :
    (o.dropStatement d (renameTable d renames)).Legible d := by
  cases o with
  | table t => exact CreateTable.Readable.name h
  | index i =>
      have hparts := CreateIndex.Readable.toParts h
      refine ⟨hparts.name, fun t ht => ?_⟩
      split at ht
      · cases ht
        exact readable_renameTable hparts.table renames
      · cases ht

end SchemaObject

namespace TablePair

variable {p : TablePair} {s : Statement}

-- A constraint keeps its name when the columns it is about are renamed.
theorem readable_oldConstraint (hold : p.old.Readable p.dialect) {c : Constraint}
    (hc : c ∈ p.oldConstraints) : c.name.Readable p.dialect := by
  obtain ⟨c', hc', rfl⟩ := List.mem_map.mp hc
  exact (hold.constraints c' hc').name

theorem readable_oldColumn (hold : p.old.Readable p.dialect) {c : Column}
    (hc : c ∈ p.oldColumns) : c.name.Readable p.dialect := by
  obtain ⟨c', hc', rfl⟩ := List.mem_map.mp hc
  exact readable_renameColumn (hold.columns c' hc').name _

theorem keyword?_valid (h : d.hasNotValid = true) :
    d.keyword? Keyword.valid.text = some .valid := by
  cases d with
  | mysql => cases h
  | _ => decide

theorem keyword?_modify (h : d.alterColumnStyle = .modify) :
    d.keyword? Keyword.modify.text = some .modify := by
  cases d with
  | mysql => decide
  | _ => cases h

-- What is planned for a table is made of parts of its two versions.
theorem Plans.legible (h : p.Plans s) (hold : p.old.Readable p.dialect)
    (hnew : p.new.Readable p.dialect) : s.Legible p.dialect := by
  cases h with
  | renameConstraint ho hn _ =>
      exact ⟨hnew.name, readable_oldConstraint hold ho, (hnew.constraints _ hn).name⟩
  | dropIndex hc _ =>
      refine ⟨⟨by simp [ObjectName.ofIdent], readable_oldConstraint hold hc⟩, fun t ht => ?_⟩
      split at ht
      · cases ht
        exact hnew.name
      · cases ht
  | dropConstraint hc _ => exact ⟨hnew.name, readable_oldConstraint hold hc⟩
  | renameColumn ho hn =>
      exact ⟨hnew.name, (hold.columns _ ho).name, (hnew.columns _ hn).name⟩
  | dropColumn ho => exact ⟨hnew.name, readable_oldColumn hold ho⟩
  | setDataType hn _ => exact ⟨hnew.name, (hnew.columns _ hn).name, (hnew.columns _ hn).dataType⟩
  | @changeDefault new hn =>
      refine ⟨hnew.name, (hnew.columns _ hn).name, ?_⟩
      cases hdefault : new.default with
      | none => trivial
      | some value => exact ((hnew.columns _ hn).default value hdefault).statement
  | @changeNull new hn _ =>
      refine ⟨hnew.name, (hnew.columns _ hn).name, ?_⟩
      cases new.notNull <;> trivial
  | modifyColumn hn hstyle => exact ⟨hnew.name, hnew.columns _ hn, keyword?_modify hstyle⟩
  | addColumn hn => exact ⟨hnew.name, hnew.columns _ hn⟩
  | @createIndex c isUnique columns hc hrule =>
      have hreadable := hnew.constraints _ hc
      have hcolumns : ColumnIdent.ListReadable p.dialect columns :=
        (hrule ▸ hreadable.rule : (Rule.index isUnique columns).Readable p.dialect).listReadable
      exact ⟨⟨by simp [ObjectName.ofIdent], hreadable.name⟩, hnew.name, by simp, hcolumns, by simp⟩
  | addConstraint hc _ hvalid =>
      exact ⟨hnew.name, hnew.constraints _ hc, fun h => keyword?_valid (hvalid h).1⟩

end TablePair

namespace SchemaPair

variable {p : SchemaPair} {s : Statement}

theorem Plans.legible (h : p.Plans s) (hbefore : ∀ o ∈ objects p.before, o.Readable p.dialect)
    (hafter : ∀ o ∈ objects p.after, o.Readable p.dialect) : s.Legible p.dialect := by
  cases h with
  | renameTable hold hnew =>
      exact ⟨CreateTable.Readable.name (hbefore _ hold),
        (CreateTable.Readable.name (hafter _ hnew)).name⟩
  | drop hold => exact (hbefore _ hold).legible_drop _
  | create hnew => exact (hafter _ hnew).legible
  | alter hold hnew hplans => exact hplans.legible (hbefore _ hold) (hafter _ hnew)

end SchemaPair

-- A schema that was read from a text.
structure Accepted (d : Dialect) (s : Script) : Prop where
  accepted : ∃ text, Script.parse d text = .ok s
  creates : ∀ statement ∈ s, statement.Creates

theorem Accepted.readable {s : Script} (h : Accepted d s) : ∀ o ∈ objects s, o.Readable d := by
  obtain ⟨text, hread⟩ := h.accepted
  intro o ho
  refine Script.readable_of_parse hread _ ?_
  rw [← map_statement_objects h.creates]
  exact List.mem_map_of_mem ho

theorem legible_steps {o : Options} {before after : Option Script}
    (hbefore : ∀ s ∈ before, Accepted d s) (hafter : ∀ s ∈ after, Accepted d s) :
    Step.Emits (·.Legible d) (steps d o before after) := by
  cases before with
  | none =>
      cases after with
      | none => exact .of_statements_nil rfl
      | some s =>
          have hs := hafter s rfl
          refine .map_emit fun statement hstatement => ?_
          rw [← map_statement_objects hs.creates] at hstatement
          obtain ⟨x, hx, rfl⟩ := List.mem_map.mp hstatement
          exact (hs.readable x hx).legible
  | some s =>
      cases after with
      | none =>
          refine .append (.append (.of_statements_nil (statements_objectRefusals _)) ?_)
            (.of_statements_nil rfl)
          refine .map_emit fun x hx => ?_
          have hmem : x ∈ objects s := by simpa [objects] using hx
          exact ((hbefore s rfl).readable x hmem).legible_drop []
      | some s' =>
          rw [steps]
          split
          · exact .of_statements_nil rfl
          · exact fun statement hs => (SchemaPair.plans_steps statement hs).legible
              (hbefore s rfl).readable (hafter s' rfl).readable

-- A migration is read again from its text as the migration that it is, with one exception: a name
-- that begins with `IF` and is printed where a condition could stand. With such a name in it the
-- text is refused.
theorem parse_diff {o : Options} {before after : Option Script} {m : Script}
    (hbefore : ∀ s ∈ before, Accepted d s) (hafter : ∀ s ∈ after, Accepted d s)
    (h : diff d o before after = .ok m) (hs : ∀ statement ∈ m, statement.Unmerged d) :
    ((∀ statement ∈ m, ¬statement.Misread) → Script.parse d (Script.sql m) = .ok m) ∧
      ((∃ statement ∈ m, statement.Misread) → ∃ e, Script.parse d (Script.sql m) = .error e) := by
  obtain ⟨-, rfl, -⟩ := diff_eq_ok h
  exact Script.parse_sql_of_legible (legible_steps hbefore hafter) hs

theorem exists_diff {o : Options} {before after : Option Script} {test : Script → Bool}
    (h : (diff d o before after).toOption.any test = true) :
    ∃ m, diff d o before after = .ok m ∧ test m = true := by
  cases hm : diff d o before after with
  | error e => simp [hm, Except.toOption] at h
  | ok m => exact ⟨m, rfl, by simpa [hm, Except.toOption] using h⟩

-- The code of the items is renamed, retyped and indexed anew.
theorem parse_diff_items : ∃ m, diff .mysql ⟨true, [], [⟨"items", "code", "name"⟩]⟩
      (some Script.items) (some namedItems) = .ok m ∧ m.length = 7 ∧
    Script.parse .mysql (Script.sql m) = .ok m := by
  have htest : (diff .mysql ⟨true, [], [⟨"items", "code", "name"⟩]⟩ (some Script.items)
      (some namedItems)).toOption.any (fun m => decide (m.length = 7 ∧
        (∀ statement ∈ m, statement.Unmerged .mysql) ∧
        ∀ statement ∈ m, ¬statement.Misread)) = true := by
    decide +kernel
  obtain ⟨m, h, hm⟩ := exists_diff htest
  obtain ⟨hlength, hs, hm⟩ := of_decide_eq_true hm
  have hbefore : ∀ s ∈ some Script.items, Accepted .mysql s := by
    simpa using ⟨isSchema_items.accepted, isSchema_items.creates⟩
  have hafter : ∀ s ∈ some namedItems, Accepted .mysql s := by
    simpa using ⟨isSchema_namedItems.accepted, isSchema_namedItems.creates⟩
  exact ⟨m, h, hlength, (parse_diff hbefore hafter h hs).1 hm⟩

-- A table, and an index whose name begins with `IF`.
def ifTable : CreateTable :=
  ⟨false, .ofIdent (.bare "t"), [⟨.bare "a", ⟨"INT", [], [], 0⟩, false, none, false⟩], [], []⟩

def ifIndex : CreateIndex :=
  ⟨false, true, .ofIdent (.bare "if"), .ofIdent (.bare "t"), none, [.ascending (.bare "a")], none⟩

-- Behind `IF NOT EXISTS` an index may have the name `if`, but `DROP INDEX if` is not read again.
theorem not_parse_diff_if :
    Script.parse .postgres "CREATE TABLE t (a INT); CREATE INDEX IF NOT EXISTS if ON t (a);" =
        .ok [.createTable ifTable, .createIndex ifIndex] ∧
      Script.parse .postgres "CREATE TABLE t (a INT);" = .ok [.createTable ifTable] ∧
      ∃ m, diff .postgres .default (some [.createTable ifTable, .createIndex ifIndex])
          (some [.createTable ifTable]) = .ok m ∧
        ∀ again, Script.parse .postgres (Script.sql m) ≠ .ok again := by
  have hdiff : diff .postgres .default (some [.createTable ifTable, .createIndex ifIndex])
      (some [.createTable ifTable]) = .ok [.dropIndex false (.ofIdent (.bare "if")) none] := by
    decide +kernel
  have hparse : (Script.parse .postgres
      (Script.sql [.dropIndex false (.ofIdent (.bare "if")) none])).toOption = none := by
    decide +kernel
  refine ⟨by decide +kernel, by decide +kernel, _, hdiff, fun again h => ?_⟩
  simp [h, Except.toOption] at hparse

end SchemaDiff.Migration
