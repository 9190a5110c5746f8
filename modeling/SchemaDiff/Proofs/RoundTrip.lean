import SchemaDiff.Proofs.Change
import SchemaDiff.Proofs.Statement

namespace SchemaDiff

open SchemaDiff.Parser

variable {d : Dialect}

namespace Statement

-- A schema is made of such statements.
def Creates : Statement → Prop
  | createTable _ | createIndex _ => True
  | _ => False

instance : DecidablePred Creates
  | createTable _ | createIndex _ => isTrue trivial
  | alterTable _ _ | dropTable _ _ | dropIndex _ _ _ => isFalse id

-- No two tokens of an expression become one when the statement is printed.
def Spaced (d : Dialect) : Statement → Prop
  | createTable t => t.Spaced d
  | createIndex i => i.Spaced d
  | _ => True

instance (d : Dialect) : DecidablePred (Spaced d)
  | createTable t => inferInstanceAs (Decidable (t.Spaced d))
  | createIndex i => inferInstanceAs (Decidable (i.Spaced d))
  | alterTable _ _ | dropTable _ _ | dropIndex _ _ _ => isTrue trivial

def ifExistsFaces (ifExists : Bool) : List Face :=
  if ifExists then [.keyword .ifWord, .keyword .existsWord] else []

def onTableFaces (d : Dialect) (table : Option ObjectName) : List Face :=
  table.elim [] fun t => .keyword .onWord :: t.faces d

def faces (d : Dialect) : Statement → List Face
  | createTable t => .keyword .create :: .keyword .table :: t.faces d
  | createIndex i =>
      .keyword .create :: ((Rule.indexKeywords i.unique).map Face.keyword ++ i.faces d)
  | alterTable name change =>
      .keyword .alter :: .keyword .table :: (name.faces d ++ change.faces d)
  | dropTable ifExists name =>
      .keyword .drop :: .keyword .table :: (ifExistsFaces ifExists ++ name.faces d)
  | dropIndex ifExists name table =>
      .keyword .drop :: .keyword .index ::
        (ifExistsFaces ifExists ++ (name.faces d ++ onTableFaces d table))

theorem prints {s : Statement} (hc : s.Creates) (h : s.Readable d) (hs : s.Spaced d) :
    Prints d s.text (s.faces d) := by
  cases s with
  | createTable t => exact CreateTable.Readable.prints h hs
  | createIndex i => exact CreateIndex.Parts.prints (CreateIndex.Readable.toParts h) hs
  | _ => exact absurd hc id

-- A statement ends with its semicolon, whatever stands behind it.
theorem lexesTo_sql {s : Statement} (h : Prints d s.text (s.faces d)) {rest : List Char}
    {more : List Face} (hm : LexesTo d rest more) :
    LexesTo d (s.sql.toList ++ rest) (s.faces d ++ .symbol .semicolon :: more) := by
  have hend : LexesTo d (";\n".toList ++ rest) (.symbol .semicolon :: more) :=
    .cons (f := .symbol .semicolon) (Face.genuine_symbol (by decide)) trivial
      (.blank (c := '\n') (by decide) hm)
  rw [sql, String.toList_append, List.append_assoc]
  exact h _ _ rfl hend

-- In front of a semicolon the tokens of the statement are read as the statement.
def Rereads (d : Dialect) (s : Statement) : Prop :=
  ∀ Y, (Face.first Y).kind = .symbol .semicolon →
    Steps (statements? d) (s.faces d ++ Y) (some [s]) Y

theorem steps_create {s : Statement} (hc : s.Creates) (h : s.Readable d) {Y : List Face}
    (hY : (Face.first Y).kind = .symbol .semicolon) :
    Steps (create d) (s.faces d ++ Y) s Y := by
  cases s with
  | createTable t =>
      exact .bind (.expectKeyword rfl) (.bind (.consume_false (by simp [Face.keyword]))
        (.bind (.consume_false (by simp [Face.keyword])) (.bind (.consume_true rfl)
          (.bind (CreateTable.Readable.steps h hY) (.pure _ Y)))))
  | createIndex i =>
      have hsteps := CreateIndex.Readable.steps h hY
      cases hu : i.unique with
      | true =>
          simp only [faces, hu, Rule.indexKeywords, if_true]
          rw [hu] at hsteps
          exact .bind (.expectKeyword rfl) (.bind (.consume_true rfl)
            (.bind (.expectKeyword rfl) (.bind hsteps (.pure _ Y))))
      | false =>
          simp only [faces, hu, Rule.indexKeywords]
          rw [hu] at hsteps
          exact .bind (.expectKeyword rfl) (.bind (.consume_false (by simp [Face.keyword]))
            (.bind (.consume_true rfl) (.bind hsteps (.pure _ Y))))
  | _ => exact absurd hc id

theorem length_behind (s : Statement) (Y : List Face) : Y.length < (s.faces d ++ Y).length := by
  rw [List.length_append]
  exact Nat.lt_add_of_pos_left (by cases s <;> exact Nat.succ_pos _)

theorem steps_statementEnd {Y : List Face} (hY : (Face.first Y).kind = .symbol .semicolon) :
    Steps statementEnd Y () Y := by
  refine .current fun t ht => ?_
  have hsemicolon : t.kind = .symbol .semicolon := (congrArg Face.kind ht).trans hY
  rw [hsemicolon]
  exact .pure () Y

theorem rereads {s : Statement} (hc : s.Creates) (h : s.Readable d) : s.Rereads d := by
  intro Y hY
  refine .current fun t ht => ?_
  have hkind : t.kind = .keyword .create := by
    cases s with
    | createTable t => exact congrArg Face.kind ht
    | createIndex i => exact congrArg Face.kind ht
    | _ => exact absurd hc id
  rw [hkind]
  exact .bind (steps_create hc h hY) (.bind (steps_statementEnd hY) (.pure _ Y))

theorem steps_semicolon (Y : List Face) :
    Steps (statements? d) (.symbol .semicolon :: Y) (some []) Y := by
  refine .current fun t ht => ?_
  have hkind : t.kind = .symbol .semicolon := congrArg Face.kind ht
  rw [hkind]
  exact .advance fun _ _ => .pure _ Y

end Statement

namespace Script

def faces (d : Dialect) (s : Script) : List Face :=
  s.flatMap fun statement => statement.faces d ++ [.symbol .semicolon]

theorem lexesTo_of_prints {s : Script}
    (h : ∀ statement ∈ s, Prints d statement.text (statement.faces d)) :
    LexesTo d (Script.sql s).toList (faces d s) := by
  induction s with
  | nil => exact .nil
  | cons statement s ih =>
      have hrest := ih fun x hx => h x (by simp [hx])
      have hall := Statement.lexesTo_sql (h statement (by simp)) hrest
      simpa [Script.sql, faces] using hall

theorem faces_cons (statement : Statement) (s : Script) :
    faces d (statement :: s) = statement.faces d ++ .symbol .semicolon :: faces d s := by
  simp [faces]

-- Every statement is read, and behind it an empty one for its semicolon.
theorem steps_of_rereads {s : Script} (h : ∀ statement ∈ s, statement.Rereads d) :
    Steps (many (statements? d)) (faces d s) (s.flatMap fun statement => [[statement], []]) [] := by
  induction s with
  | nil =>
      refine .many_nil (.current fun t ht => ?_)
      have hkind : t.kind = .endOfInput := congrArg Face.kind ht
      rw [hkind]
      exact .pure none []
  | cons statement s ih =>
      have hrest := ih fun x hx => h x (by simp [hx])
      rw [faces_cons]
      exact .many_cons (h statement (by simp) _ rfl) (statement.length_behind _)
        (.many_cons (Statement.steps_semicolon _) (by simp) hrest)

theorem lexesTo_sql {s : Script} (hc : ∀ statement ∈ s, statement.Creates)
    (h : ∀ statement ∈ s, statement.Readable d) (hs : ∀ statement ∈ s, statement.Spaced d) :
    LexesTo d (Script.sql s).toList (faces d s) :=
  lexesTo_of_prints fun x hx => Statement.prints (hc x hx) (h x hx) (hs x hx)

theorem steps_many {s : Script} (hc : ∀ statement ∈ s, statement.Creates)
    (h : ∀ statement ∈ s, statement.Readable d) :
    Steps (many (statements? d)) (faces d s) (s.flatMap fun statement => [[statement], []]) [] :=
  steps_of_rereads fun x hx => Statement.rereads (hc x hx) (h x hx)

theorem flatten_readings (s : Script) :
    (s.flatMap fun statement => [[statement], []]).flatten = s := by
  induction s with
  | nil => rfl
  | cons statement s ih => simpa using ih

-- The canonical text of a schema is read as the schema that it was printed from.
theorem parse_sql {text : String} {s : Script} (h : Script.parse d text = .ok s)
    (hc : ∀ statement ∈ s, statement.Creates) (hs : ∀ statement ∈ s, statement.Spaced d) :
    Script.parse d (Script.sql s) = .ok s := by
  have hreadable := readable_of_parse h
  have hsteps : Steps (Parser.script d) (faces d s) s [] := by
    refine .bind (steps_many hc hreadable) ?_
    rw [flatten_readings]
    exact .pure s []
  obtain ⟨s', hscript, -⟩ := hsteps (.ofText d (Script.sql s))
    (lexesTo_sql hc hreadable hs).ofText
  unfold Script.parse
  rw [hscript]

-- Keys become constraints, unique constraints become indexes, and defaults go behind `NOT NULL`.
def items : Script := [
  .createTable ⟨false, .ofIdent (.bare "items"),
    [⟨.bare "id", ⟨"INT", [], ["UNSIGNED"], 0⟩, true, some ⟨[.bare "1", .bare "+", .bare "2"]⟩,
        false⟩,
      ⟨.bare "code", ⟨"VARCHAR", [.bare "9"], [], 0⟩, false, none, false⟩],
    [⟨.bare "items_pkey", .primaryKey [.ascending (.bare "id")]⟩,
      ⟨.bare "items_unique_code", .index true [.ascending (.bare "code")]⟩],
    [⟨"ENGINE", .bare "InnoDB", false⟩]⟩,
  .createIndex ⟨false, false, .ofIdent (.bare "i"), .ofIdent (.bare "items"), none,
    [⟨.bare "code", .descending⟩], none⟩]

theorem parse_items : Script.parse .mysql
    "CREATE TABLE items (id int unsigned DEFAULT 1+2 PRIMARY KEY, code varchar(9) UNIQUE)
      ENGINE InnoDB; CREATE INDEX i ON items (code DESC)" = .ok items := by
  decide +kernel

theorem parse_sql_items : Script.parse .mysql (Script.sql items) = .ok items :=
  parse_sql parse_items (by decide) (by decide +kernel)

end Script

end SchemaDiff
