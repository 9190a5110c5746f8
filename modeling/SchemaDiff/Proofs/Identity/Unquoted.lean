import SchemaDiff.Proofs.Catalog.Identity
import SchemaDiff.Proofs.Statement

namespace SchemaDiff

open SchemaDiff.Parser

variable {d : Dialect}

namespace Ident

-- What a comparison sees of an identifier.
def unquoted (i : Ident) : Ident :=
  .bare i.name

-- The name does not look like more or less than one name between blanks and commas.
structure Clear (i : Ident) : Prop where
  ne_empty : i.name ≠ ""
  plain : Plain i.name

instance : DecidablePred Clear :=
  fun i => decidable_of_iff (i.name ≠ "" ∧ Plain i.name) ⟨fun h => ⟨h.1, h.2⟩, fun h => ⟨h.1, h.2⟩⟩

-- Only quotes hide a name.
theorem unquoted_exprToken {t : Token} {i : Ident} (h : exprToken t = i) (hquote : i.quote = none) :
    i.unquoted = i := by
  unfold exprToken at h
  split at h <;> cases h
  case h_3 => cases hquote
  all_goals rfl

theorem unquoted_optionValue {t : Token} {i : Ident} (h : optionValue? t = some i)
    (hquote : i.quote = none) : i.unquoted = i := by
  cases hk : t.kind <;>
    simp only [optionValue?, hk, Option.some.injEq, reduceCtorEq] at h <;> subst h
  case quotedIdentifier => cases hquote
  all_goals rfl

end Ident

def ObjectName.unquoted (n : ObjectName) : ObjectName :=
  .ofIdent n.name.unquoted

def ColumnIdent.unquoted (c : ColumnIdent) : ColumnIdent :=
  { c with ident := c.ident.unquoted }

namespace Expr

def unquoted (e : Expr) : Expr :=
  ⟨e.tokens.map Ident.unquoted⟩

theorem identity_eq (e : Expr) : e.identity = e.unquoted.sql := by
  simp [identity, sql, spelled, unquoted, Ident.unquoted, Ident.bare, Function.comp_def]

-- Every token is found again in the identity: a quoted name is a word that is no keyword, and no
-- two tokens become one.
structure Clear (d : Dialect) (e : Expr) : Prop where
  words : ∀ i ∈ e.tokens, i.quote ≠ none →
    Face.looksLikeWord i.name = true ∧ d.keyword? i.name = none
  spaced : e.unquoted.Spaced d

instance (d : Dialect) : DecidablePred (Clear d) :=
  fun e => decidable_of_iff ((∀ i ∈ e.tokens, i.quote ≠ none →
      Face.looksLikeWord i.name = true ∧ d.keyword? i.name = none) ∧ e.unquoted.Spaced d)
    ⟨fun h => ⟨h.1, h.2⟩, fun h => ⟨h.1, h.2⟩⟩

-- What a token is without its quotes.
def bareKind : TokenKind → TokenKind
  | .quotedIdentifier _ => .identifier
  | k => k

theorem face_unquoted {i : Ident} (hgenuine : (i.face d).Genuine d)
    (hread : exprToken (i.face d).token = i)
    (hword : i.quote ≠ none → Face.looksLikeWord i.name = true ∧ d.keyword? i.name = none) :
    (i.unquoted.face d).Genuine d ∧ (i.unquoted.face d).kind = bareKind (i.face d).kind := by
  cases hquote : i.quote with
  | none =>
      have hsame := Ident.unquoted_exprToken hread hquote
      have hkind : bareKind (i.face d).kind = (i.face d).kind := by
        unfold bareKind
        split
        · rename_i q hk
          have hk : (i.face d).token.kind = .quotedIdentifier q := hk
          rw [← hread, exprToken, hk] at hquote
          cases hquote
        · rfl
      rw [hsame, hkind]
      exact ⟨hgenuine, rfl⟩
  | some q =>
      obtain ⟨hlooks, hkeyword⟩ := hword (by simp [hquote])
      have hg : (Face.word i.name).Genuine d :=
        Face.genuine_word (Face.isWord_of_looks hlooks) hkeyword
      have hface : i.unquoted.face d = Face.word i.name := hg.read_eq
      have hkind : ∃ q, (i.face d).kind = .quotedIdentifier q := by
        rw [← hread, exprToken] at hquote
        split at hquote <;> first | exact ⟨_, ‹_›⟩ | cases hquote
      obtain ⟨q, hkind⟩ := hkind
      rw [hface, hkind]
      exact ⟨hg, rfl⟩

theorem stopAt?_bareKind (place : ExprPlace) (depth : Nat) (isFirst : Bool) (k : TokenKind)
    (next : Option TokenKind) :
    stopAt? place depth isFirst (kindToken (bareKind k)) ((next.map bareKind).map kindToken) =
      stopAt? place depth isFirst (kindToken k) (next.map kindToken) := by
  have hnull : ∀ k : TokenKind, (bareKind k == .keyword .null) = (k == .keyword .null) := by
    intro k
    cases k <;> rfl
  have hclause : ∀ word, startsClause word ((next.map bareKind).map kindToken) =
      startsClause word (next.map kindToken) := by
    intro word
    cases word <;> try rfl
    cases next with
    | none => rfl
    | some k => exact hnull k
  cases k with
  | keyword word =>
      unfold stopAt?
      dsimp only [bareKind, kindToken]
      rw [hclause word]
  | symbol s => cases s <;> rfl
  | _ => rfl

theorem depthAfter_bareKind (depth : Nat) (k : TokenKind) :
    depthAfter depth (kindToken (bareKind k)) = depthAfter depth (kindToken k) := by
  cases k <;> rfl

theorem inside_bareKind {place : ExprPlace} {depth : Nat} {isFirst : Bool} {kinds : List TokenKind}
    (h : Inside place depth isFirst kinds) :
    Inside place depth isFirst (kinds.map bareKind) := by
  induction kinds generalizing depth isFirst with
  | nil => trivial
  | cons k kinds ih =>
      obtain ⟨hstop, hrest⟩ := h
      refine ⟨?_, ?_⟩
      · rw [List.head?_map, stopAt?_bareKind, hstop]
      · rw [depthAfter_bareKind]
        exact ih hrest

theorem depthBehind_bareKind (kinds : List TokenKind) (depth : Nat) :
    depthBehind (kinds.map bareKind) depth = depthBehind kinds depth := by
  simp only [depthBehind, List.foldl_map, depthAfter_bareKind]

-- Where an expression ends is seen without its quotes as well.
theorem Clear.bounded {place : ExprPlace} {e : Expr} (h : e.Clear d) (hr : e.Readable d place) :
    e.unquoted.Bounded d place := by
  have hface := fun i hi => face_unquoted (hr.genuine i hi).1 (hr.genuine i hi).2 (h.words i hi)
  have hkinds : e.unquoted.kinds d = (e.kinds d).map bareKind := by
    simp only [kinds, faces, unquoted, List.map_map]
    exact List.map_congr_left fun i hi => (hface i hi).2
  refine ⟨by simpa [unquoted] using hr.ne_nil, ?_, ?_, ?_⟩
  · simp only [unquoted, List.forall_mem_map]
    exact fun i hi => (hface i hi).1
  · rw [hkinds]
    exact inside_bareKind hr.inside
  · rw [hkinds, depthBehind_bareKind]
    exact hr.closed

-- The tokens of the identity are the names.
theorem unquoted_of_faces {e e' : Expr} (h : e.unquoted.faces d = e'.unquoted.faces d) :
    e.unquoted = e'.unquoted := by
  have hnames := congrArg (List.map Face.literal) h
  simp only [faces, unquoted, List.map_map, Function.comp_def, Ident.face_literal] at hnames
  have hbare : ∀ e : Expr, e.unquoted = ⟨(e.tokens.map fun i => i.unquoted.raw).map .bare⟩ := by
    intro e
    simp [unquoted, Ident.unquoted, Ident.bare]
  rw [hbare, hbare, hnames]

end Expr

namespace Column

def unquoted (c : Column) : Column :=
  { c with name := c.name.unquoted, default := c.default.map Expr.unquoted }

structure Clear (d : Dialect) (c : Column) : Prop where
  name : c.name.Clear
  default : ∀ e ∈ c.default, e.Clear d

instance (d : Dialect) : DecidablePred (Clear d) :=
  fun c => decidable_of_iff (c.name.Clear ∧ ∀ e ∈ c.default, e.Clear d)
    ⟨fun h => ⟨h.1, h.2⟩, fun h => ⟨h.1, h.2⟩⟩

theorem Clear.bounded {c : Column} (h : c.Clear d) (hr : c.Readable d) : c.unquoted.Bounded d where
  dataType := hr.dataType
  default := by
    intro e he
    obtain ⟨e, hsome, rfl⟩ := Option.map_eq_some_iff.mp he
    exact (h.default e hsome).bounded (hr.default e hsome)
  autoIncrement := hr.autoIncrement

theorem Clear.spaced {c : Column} (h : c.Clear d) : c.unquoted.Spaced d := by
  intro e he
  obtain ⟨e, hsome, rfl⟩ := Option.map_eq_some_iff.mp he
  exact (h.default e hsome).spaced

end Column

def ColumnIdent.ListClear (columns : List ColumnIdent) : Prop :=
  ∀ c ∈ columns, c.ident.Clear

instance : DecidablePred ColumnIdent.ListClear :=
  fun columns => inferInstanceAs (Decidable (∀ c ∈ columns, c.ident.Clear))

namespace Reference

def unquoted (r : Reference) : Reference :=
  { r with table := r.table.unquoted, columns := r.columns.map ColumnIdent.unquoted }

structure Clear (r : Reference) : Prop where
  table : r.table.name.Clear
  columns : ColumnIdent.ListClear r.columns

instance : DecidablePred Clear :=
  fun r => decidable_of_iff (r.table.name.Clear ∧ ColumnIdent.ListClear r.columns)
    ⟨fun h => ⟨h.1, h.2⟩, fun h => ⟨h.1, h.2⟩⟩

end Reference

namespace Rule

def unquoted : Rule → Rule
  | primaryKey columns => primaryKey (columns.map ColumnIdent.unquoted)
  | foreignKey columns target => foreignKey (columns.map ColumnIdent.unquoted) target.unquoted
  | unique columns => unique (columns.map ColumnIdent.unquoted)
  | check body => check body.unquoted
  | index isUnique columns => index isUnique (columns.map ColumnIdent.unquoted)

def Clear (d : Dialect) : Rule → Prop
  | primaryKey columns | unique columns | index _ columns => ColumnIdent.ListClear columns
  | foreignKey columns target => ColumnIdent.ListClear columns ∧ target.Clear
  | check body => body.Clear d

instance (d : Dialect) : DecidablePred (Clear d)
  | primaryKey columns | unique columns | index _ columns =>
      inferInstanceAs (Decidable (ColumnIdent.ListClear columns))
  | foreignKey columns target =>
      inferInstanceAs (Decidable (ColumnIdent.ListClear columns ∧ target.Clear))
  | check body => inferInstanceAs (Decidable (body.Clear d))

end Rule

namespace Constraint

def unquoted (c : Constraint) : Constraint :=
  ⟨c.name.unquoted, c.rule.unquoted⟩

structure Clear (d : Dialect) (c : Constraint) : Prop where
  name : c.name.Clear
  rule : c.rule.Clear d

instance (d : Dialect) : DecidablePred (Clear d) :=
  fun c => decidable_of_iff (c.name.Clear ∧ c.rule.Clear d) ⟨fun h => ⟨h.1, h.2⟩, fun h => ⟨h.1, h.2⟩⟩

end Constraint

namespace TableOption

-- It is one option with an equals sign and without.
def unquoted (o : TableOption) : TableOption :=
  ⟨o.name, o.value.unquoted, true⟩

def Clear (o : TableOption) : Prop :=
  o.value.quote ≠ none → Face.looksLikeWord o.value.name = true

instance : DecidablePred Clear :=
  fun o => inferInstanceAs (Decidable (o.value.quote ≠ none → Face.looksLikeWord o.value.name = true))

theorem Clear.readable {o : TableOption} (h : o.Clear) (hr : o.Readable d) :
    o.unquoted.Readable d := by
  obtain ⟨hname, hgenuine, hvalue⟩ := hr
  cases hquote : o.value.quote with
  | none =>
      have hsame := Ident.unquoted_optionValue hvalue hquote
      have hface : o.unquoted.value.face d = o.value.face d := congrArg (Ident.face d) hsame
      exact ⟨hname, hface ▸ hgenuine, by rw [hface, hvalue, ← hsame]; rfl⟩
  | some q =>
      have hlooks := h (by simp [hquote])
      have hg : Face.Genuine d ⟨Token.wordKind d o.value.name, o.value.name⟩ :=
        Token.genuine_of_isWord (Face.isWord_of_looks hlooks)
      have hface : o.unquoted.value.face d = ⟨Token.wordKind d o.value.name, o.value.name⟩ :=
        hg.read_eq
      refine ⟨hname, hface ▸ hg, ?_⟩
      rw [hface]
      unfold Token.wordKind
      split <;> rfl

end TableOption

namespace CreateTable

-- The table without its quotes, and without what a comparison passes over.
def unquoted (t : CreateTable) : CreateTable where
  ifNotExists := false
  name := t.name.unquoted
  columns := t.columns.map Column.unquoted
  constraints := t.constraints.map Constraint.unquoted
  options := t.options.map TableOption.unquoted

theorem column?_unquoted (t : CreateTable) (name : String) :
    t.unquoted.column? name = (t.column? name).map Column.unquoted :=
  List.find?_map

theorem constraint?_unquoted (t : CreateTable) (name : String) :
    t.unquoted.constraint? name = (t.constraint? name).map Constraint.unquoted :=
  List.find?_map

structure Clear (d : Dialect) (t : CreateTable) : Prop where
  name : t.name.name.Clear
  columns : ∀ c ∈ t.columns, c.Clear d
  constraints : ∀ c ∈ t.constraints, c.Clear d
  options : ∀ o ∈ t.options, o.Clear

instance (d : Dialect) : DecidablePred (Clear d) :=
  fun t => decidable_of_iff (t.name.name.Clear ∧ (∀ c ∈ t.columns, c.Clear d) ∧
      (∀ c ∈ t.constraints, c.Clear d) ∧ ∀ o ∈ t.options, o.Clear)
    ⟨fun h => ⟨h.1, h.2.1, h.2.2.1, h.2.2.2⟩,
      fun h => ⟨h.name, h.columns, h.constraints, h.options⟩⟩

end CreateTable

namespace CreateIndex

-- Methods are compared without regard to case.
def unquoted (i : CreateIndex) : CreateIndex where
  unique := i.unique
  ifNotExists := false
  name := i.name.unquoted
  table := i.table.unquoted
  method := i.method.map fun m => .bare (Text.upper m.name)
  columns := i.columns.map ColumnIdent.unquoted
  predicate := i.predicate.map Expr.unquoted

structure Clear (d : Dialect) (i : CreateIndex) : Prop where
  name : i.name.name.Clear
  table : i.table.name.Clear
  method : ∀ m ∈ i.method, m.Clear
  columns : ColumnIdent.ListClear i.columns
  predicate : ∀ e ∈ i.predicate, e.Clear d

instance (d : Dialect) : DecidablePred (Clear d) :=
  fun i => decidable_of_iff (i.name.name.Clear ∧ i.table.name.Clear ∧ (∀ m ∈ i.method, m.Clear) ∧
      ColumnIdent.ListClear i.columns ∧ ∀ e ∈ i.predicate, e.Clear d)
    ⟨fun h => ⟨h.1, h.2.1, h.2.2.1, h.2.2.2.1, h.2.2.2.2⟩,
      fun h => ⟨h.name, h.table, h.method, h.columns, h.predicate⟩⟩

end CreateIndex

namespace Statement

def unquoted : Statement → Statement
  | createTable t => createTable t.unquoted
  | createIndex i => createIndex i.unquoted
  | s => s

-- Nothing that quotes enclose can be taken for anything else in the identity of the statement.
def Clear (d : Dialect) : Statement → Prop
  | createTable t => t.Clear d
  | createIndex i => i.Clear d
  | _ => True

instance (d : Dialect) : DecidablePred (Clear d)
  | createTable t => inferInstanceAs (Decidable (t.Clear d))
  | createIndex i => inferInstanceAs (Decidable (i.Clear d))
  | alterTable _ _ | dropTable _ _ | dropIndex _ _ _ => isTrue trivial

end Statement

end SchemaDiff
