import SchemaDiff.Proofs.Contents
import SchemaDiff.Proofs.Token.Quoted

namespace SchemaDiff

open SchemaDiff.Parser

variable {d : Dialect}

namespace Ident

-- A bare identifier is its own name. A quoted one is its name between the quotes of the dialect, and
-- the quotes in the name are doubled.
def Faithful (d : Dialect) (i : Ident) : Prop :=
  match i.quote with
  | none => i.raw = i.name
  | some q => q = d.identifierQuote ∧ i.raw = Text.quote q i.name

theorem faithful_bare (name : String) : (bare name).Faithful d := rfl

theorem faithful_ofLiteral {f : Face} {q : Char} (h : f.Genuine d)
    (hk : f.kind = .quotedIdentifier q) : (ofLiteral q f.literal).Faithful d :=
  ⟨(h.exists_quote hk).1, (h.quote_unquote hk).symm⟩

theorem faithful_identOf? {f : Face} {i : Ident} (h : f.Genuine d)
    (hi : identOf? f.token = some i) : i.Faithful d := by
  unfold identOf? at hi
  split at hi
  · cases hi
    exact faithful_bare _
  · rename_i hk
    cases hi
    exact faithful_ofLiteral h hk
  · split at hi
    · cases hi
    · cases hi
      exact faithful_bare _
  · cases hi

theorem Readable.faithful {i : Ident} (h : i.Readable d) : i.Faithful d :=
  faithful_identOf? h.genuine h.read

theorem faithful_exprToken {f : Face} (h : f.Genuine d) : (exprToken f.token).Faithful d := by
  unfold exprToken
  split
  · exact faithful_bare _
  · exact faithful_bare _
  · rename_i hk
    exact faithful_ofLiteral h hk
  · exact faithful_bare _

theorem faithful_optionValue {f : Face} {i : Ident} (h : f.Genuine d)
    (hi : optionValue? f.token = some i) : i.Faithful d := by
  unfold optionValue? at hi
  cases hk : f.kind with
  | quotedIdentifier q =>
      simp only [Face.token, hk] at hi
      cases hi
      exact faithful_ofLiteral h hk
  | identifier | keyword k | number | string =>
      simp only [Face.token, hk] at hi
      cases hi
      exact faithful_bare _
  | symbol s | comment | endOfInput | illegal =>
      simp only [Face.token, hk] at hi
      cases hi

end Ident

theorem Expr.Gathered.faithful {place : ExprPlace} {e : Expr} (h : e.Gathered d place) :
    ∀ i ∈ e.tokens, i.Faithful d := by
  intro i hi
  obtain ⟨hgenuine, hread⟩ := h.genuine i hi
  rw [← hread]
  exact Ident.faithful_exprToken hgenuine

theorem DataType.Readable.faithful {t : DataType} (h : t.Readable d) :
    ∀ i ∈ t.params, i.Faithful d := by
  intro i hi
  rw [← (h.params i hi).bare]
  exact Ident.faithful_bare _

theorem ObjectName.Readable.faithful {n : ObjectName} (h : n.Readable d) :
    ∀ i ∈ n.idents, i.Faithful d := by
  intro i hi
  rcases List.mem_append.mp hi with hi | hi
  · exact (h.schema i (Option.mem_toList.mp hi)).faithful
  · obtain rfl := List.mem_singleton.mp hi
    exact h.name.faithful

-- Words that only one family of dialects has.
theorem eq_mysql_of_keyword? {k : Keyword} (h : d.keyword? k.text = some k)
    (hk : k = .modify ∨ k = .autoIncrement) : d = .mysql := by
  rcases hk with rfl | rfl <;> cases d <;> first | rfl | exact absurd h (by decide)

theorem ne_mysql_of_valid (h : d.keyword? Keyword.valid.text = some .valid) : d ≠ .mysql := by
  rintro rfl
  exact absurd h (by decide)

-- The columns of a primary key are never null, wherever the key stands in the table.
theorem CreateTable.Readable.notNull {t : CreateTable} (h : t.Readable d) {constraint : Constraint}
    (hconstraint : constraint ∈ t.constraints) {key : ColumnIdent}
    (hkey : key ∈ constraint.rule.primaryColumns) {column : Column} (hcolumn : column ∈ t.columns)
    (hname : column.name.name = key.ident.name) : column.notNull = true := by
  have hforced := h.keys column hcolumn
  have hany : (t.constraints.flatMap fun c => c.rule.primaryColumns).any
      (·.ident.name == column.name.name) = true := by
    rw [List.any_eq_true]
    exact ⟨key, List.mem_flatMap.mpr ⟨constraint, hconstraint, hkey⟩, by simp [hname]⟩
  unfold forceKeysNotNull at hforced
  dsimp only at hforced
  rw [if_pos hany] at hforced
  rw [← hforced]

-- Unique constraints are constraints in one dialect and indexes in the others.
theorem Rule.Readable.dialect_of_unique {columns : List ColumnIdent}
    (h : (unique columns).Readable d) : d = .postgres := by
  cases d with
  | postgres => rfl
  | _ => cases h.2

theorem Rule.Readable.dialect_of_index {isUnique : Bool} {columns : List ColumnIdent}
    (h : (index isUnique columns).Readable d) : d = .mysql ∨ d = .cockroach := by
  cases d with
  | postgres => cases isUnique <;> cases h.2
  | mysql => exact .inl rfl
  | cockroach => exact .inr rfl

namespace Statement

-- What the printer and the comparison of schemas rely on.
structure WellFormed (d : Dialect) (s : Statement) : Prop where
  keys : ∀ t, s = createTable t → ∀ c ∈ t.constraints, ∀ key ∈ c.rule.primaryColumns,
    ∀ column ∈ t.columns, column.name.name = key.ident.name → column.notNull = true
  exprs : ∀ e ∈ s.exprs, e.tokens ≠ []
  columnLists : ∀ columns ∈ s.columnLists, columns ≠ []
  idents : ∀ i ∈ s.idents, i.Faithful d
  unique : ∀ c ∈ s.constraints, ∀ columns, c.rule = .unique columns → d = .postgres
  index : ∀ c ∈ s.constraints, c.isIndex = true → d = .mysql ∨ d = .cockroach
  autoIncrement : ∀ c ∈ s.columns, c.autoIncrement = true → d = .mysql
  modify : ∀ name column, s = alterTable name (.modifyColumn column) → d = .mysql
  arrayDims : ∀ t ∈ s.dataTypes, t.arrayDims ≠ 0 → d ≠ .mysql
  notValid : ∀ name c, s = alterTable name (.addConstraint c true) → d ≠ .mysql
  options : ∀ o ∈ s.options, ∃ words ∈ d.tableOptions, o.name = " ".intercalate words

variable {s : Statement}

theorem Gathered.idents (h : s.Gathered d) : ∀ i ∈ s.idents, i.Faithful d := by
  intro i hi
  simp only [Statement.idents, List.mem_append, or_assoc, List.mem_flatMap, List.mem_map,
    List.mem_flatten] at hi
  rcases hi with ⟨n, hn, hi⟩ | hi | ⟨c, hc, rfl⟩ | ⟨c, hc, rfl⟩ | ⟨key, ⟨columns, hc, hkey⟩, rfl⟩ |
    ⟨r, hr, hi⟩ | ⟨t, ht, hi⟩ | ⟨e, he, hi⟩ | ⟨index, hindex, hi⟩ | ⟨o, ho, rfl⟩
  · exact (h.objects n hn).faithful i hi
  · exact (h.changedNames i hi).faithful
  · exact (h.columns c hc).name.faithful
  · exact (h.constraints c hc).name.faithful
  · exact ((h.columnLists columns hc).readable key hkey).faithful
  · have hreference := h.references r hr
    rcases hi with hi | ⟨key, hkey, rfl⟩
    · exact hreference.table.faithful i hi
    · exact (hreference.columns key hkey).faithful
  · exact (h.dataTypes t ht).faithful i hi
  · obtain ⟨place, hgathered⟩ := h.exprs e he
    exact hgathered.faithful i hi
  · exact ((h.indexes index hindex).method i (Option.mem_toList.mp hi)).faithful
  · have hoption := h.options o ho
    exact Ident.faithful_optionValue hoption.genuine hoption.value

theorem Gathered.wellFormed (h : s.Gathered d) : s.WellFormed d where
  keys t hs c hc key hkey column hcolumn hname := by
    subst hs
    exact CreateTable.Readable.notNull h hc hkey hcolumn hname
  exprs e he := by
    obtain ⟨place, hgathered⟩ := h.exprs e he
    exact hgathered.ne_nil
  columnLists columns hcolumns := (h.columnLists columns hcolumns).ne_nil
  idents := h.idents
  unique c hc columns hunique := by
    have hrule := (h.constraints c hc).rule
    rw [hunique] at hrule
    exact hrule.dialect_of_unique
  index c hc hindex := by
    have hrule := (h.constraints c hc).rule
    rw [Constraint.isIndex] at hindex
    generalize c.rule = rule at hrule hindex
    cases rule with
    | index isUnique columns => exact hrule.dialect_of_index
    | _ => cases hindex
  autoIncrement c hc hauto := eq_mysql_of_keyword? ((h.columns c hc).autoIncrement hauto) (.inr rfl)
  modify name column hs := by
    subst hs
    exact eq_mysql_of_keyword? h.2.2 (.inl rfl)
  arrayDims t ht hdims hd := by
    subst hd
    exact hdims ((h.dataTypes t ht).dims rfl)
  notValid name c hs := by
    subst hs
    exact ne_mysql_of_valid (h.2.2 rfl)
  options o ho := (h.options o ho).name

end Statement

-- Every statement of an accepted text is well formed.
theorem Script.parse_wellFormed {text : String} {s : Script} (h : parse d text = .ok s) :
    ∀ statement ∈ s, statement.WellFormed d :=
  fun statement hs => (gathered_of_parse h statement hs).wellFormed

-- The key stands in front of its column, which says `NULL` and has a quote in its name.
def keyedTable : CreateTable where
  ifNotExists := false
  name := .ofIdent (.bare "t")
  columns := [⟨.quoted '\x60' "a\x60b", ⟨"INT", [], [], 0⟩, true, none, true⟩]
  constraints := [⟨.bare "t_pkey", .primaryKey [.ascending (.quoted '\x60' "a\x60b")]⟩]
  options := [⟨"ENGINE", .bare "InnoDB", true⟩]

theorem Script.parse_wellFormed_keyedTable :
    parse .mysql ("CREATE TABLE t (PRIMARY KEY (\x60a\x60\x60b\x60), " ++
        "\x60a\x60\x60b\x60 INT NULL AUTO_INCREMENT) ENGINE=InnoDB;") =
      .ok [.createTable keyedTable] ∧ (Statement.createTable keyedTable).WellFormed .mysql := by
  have h : parse .mysql ("CREATE TABLE t (PRIMARY KEY (\x60a\x60\x60b\x60), " ++
        "\x60a\x60\x60b\x60 INT NULL AUTO_INCREMENT) ENGINE=InnoDB;") =
      .ok [.createTable keyedTable] := by
    decide +kernel
  exact ⟨h, parse_wellFormed h _ (List.mem_singleton.mpr rfl)⟩

end SchemaDiff
