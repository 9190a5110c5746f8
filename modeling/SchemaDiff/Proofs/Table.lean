import SchemaDiff.Proofs.Column
import SchemaDiff.Proofs.TableOption

namespace SchemaDiff

open SchemaDiff.Parser

variable {d : Dialect}

namespace Parser

-- A name without `IF NOT EXISTS` in front of it does not begin with `IF`.
theorem yields_ifNotExists {β : Type} {c : Context} {q : Bool → Parser β} {Q : β → Prop}
    (htrue : Yields d (q true) Q)
    (hfalse : ∀ t : Token, t.Scanned d → t.kind ≠ .keyword .ifWord → YieldsAt d t (q false) Q) :
    Yields d (ifNotExists c >>= q) Q := by
  intro s b s' hs h
  obtain ⟨found, u, hfound, hq⟩ := bind_eq_ok.mp h
  obtain ⟨isIf, v, hif, hfound⟩ := bind_eq_ok.mp hfound
  obtain ⟨isIf', w, hcheck, hif⟩ := bind_eq_ok.mp hif
  cases hcheck
  cases hk : s.current.kind == .keyword .ifWord with
  | true =>
      have hrest : Yields d (do
          expectKeyword .not c
          expectKeyword .existsWord c
          q true) Q := .bind .expectKeyword fun _ _ => .bind .expectKeyword fun _ _ => htrue
      rw [hk] at hif
      cases hif
      obtain ⟨x, y, hnot, hfound⟩ := bind_eq_ok.mp hfound
      obtain ⟨x', z, hexists, hfound⟩ := bind_eq_ok.mp hfound
      cases hfound
      exact hrest _ _ _ hs.next (bind_eq_ok.mpr ⟨x, y, hnot, bind_eq_ok.mpr ⟨x', _, hexists, hq⟩⟩)
  | false =>
      rw [hk] at hif
      cases hif
      cases hfound
      exact hfalse s.current hs.current (by simpa using hk) _ _ _ hs rfl hq

theorem steps_ifNotExists {c : Context} {found : Bool} {Y : List Face}
    (hY : found = false → (Face.first Y).kind ≠ .keyword .ifWord) :
    Steps (ifNotExists c)
      ((if found then [Face.keyword .ifWord, .keyword .not, .keyword .existsWord] else []) ++ Y)
      found Y := by
  cases found with
  | true =>
      exact .bind (.consume_true rfl) (.bind (.expectKeyword rfl) (.bind (.expectKeyword rfl)
        (.pure true Y)))
  | false => exact .bind (.consume_false (hY rfl)) (.pure false Y)

end Parser

theorem prints_ifNotExists (found : Bool) {text : String} {faces : List Face}
    (h : Prints d text faces) :
    Prints d ((if found then "IF NOT EXISTS " else "") ++ text)
      ((if found then [Face.keyword .ifWord, .keyword .not, .keyword .existsWord] else []) ++
        faces) := by
  cases found with
  | true => exact .lead "IF NOT EXISTS " [.ifWord, .not, .existsWord] rfl (by decide) h
  | false => simpa using h

namespace Parser.TableElement

def Readable (d : Dialect) : TableElement → Prop
  | column definition =>
      definition.column.Readable d ∧ ∀ c ∈ definition.constraints, c.Readable d
  | constraint c => c.Readable d

theorem yields_tableElement {table : ObjectName} :
    YieldsOrEnds d (tableElement d table) (·.Readable d) := by
  refine .current fun t ht => ?_
  split
  · exact .of (.of (.bind yields_tableConstraint fun c hc => .pure hc))
  · rename_i hstart
    exact .map (yields_columnDefinition ht (by simpa using hstart)) fun definition h => h

theorem yields_tableElements {table : ObjectName} :
    YieldsOrEnds d (tableElements d table) fun elements => ∀ e ∈ elements, e.Readable d := by
  refine .bind .check fun isEmpty _ => ?_
  cases isEmpty with
  | true => exact .of (.pure (by simp))
  | false =>
      intro s elements s' hs h
      obtain ⟨helements, hs'⟩ := YieldsOrEnds.commaSeparated yields_tableElement s elements s' hs h
      exact ⟨helements.imp_left fun h => h.2, hs'⟩

-- An entry as it is printed: constraints that were declared with a column stand behind it.
def text : TableElement → String
  | column definition => definition.column.sql
  | constraint c => c.sql

def faces (d : Dialect) : TableElement → List Face
  | column definition => definition.column.faces d
  | constraint c => c.faces d

theorem starts_constraint {c : Constraint} (h : c.Readable d) (Y : List Face) :
    startsTableConstraint d (Face.first (c.faces d ++ Y)).token = true := by
  obtain ⟨name, rule⟩ := c
  cases rule with
  | index isUnique columns =>
      cases isUnique with
      | true => rfl
      | false => exact h.rule.2
  | _ => rfl

theorem starts_of_face {c : Constraint} (h : c.Readable d) {t : Token} {Y : List Face}
    (ht : t.face = Face.first (c.faces d ++ Y)) : startsTableConstraint d t = true := by
  have hface : startsTableConstraint d t = startsTableConstraint d t.face.token := rfl
  rw [hface, ht]
  exact starts_constraint h Y

theorem steps_column {c : Column} (h : c.Readable d) {table : ObjectName} {Y : List Face}
    (hY : Face.EndsEntry Y) :
    Steps (tableElement d table) (c.faces d ++ Y) (column ⟨c, []⟩) Y := by
  refine .current fun t ht => ?_
  have hstart : startsTableConstraint d t = false := by
    have hface : startsTableConstraint d t = startsTableConstraint d t.face.token := rfl
    rw [hface, ht]
    exact h.start
  rw [hstart]
  exact .bind (h.steps hY) (.pure _ Y)

theorem steps_constraint {c : Constraint} (h : c.Readable d) {table : ObjectName} {Y : List Face}
    (hY : Face.EndsEntry Y) :
    Steps (tableElement d table) (c.faces d ++ Y) (constraint c) Y := by
  refine .current fun t ht => ?_
  rw [starts_of_face h ht]
  exact .bind (h.steps (Reference.follows_of_endsEntry hY)) (.pure _ Y)

theorem exists_head_column {c : Column} (h : c.Readable d) :
    ∃ f X, c.faces d = f :: X ∧ f.kind ≠ .symbol .rightParen := by
  refine ⟨_, _, rfl, fun hk => ?_⟩
  have hname := h.name.isNameKind
  rw [hk] at hname
  exact Bool.false_ne_true hname

theorem exists_head_constraint (c : Constraint) :
    ∃ f X, c.faces d = f :: X ∧ f.kind ≠ .symbol .rightParen := by
  obtain ⟨name, rule⟩ := c
  cases rule with
  | index isUnique columns => cases isUnique <;> exact ⟨_, _, rfl, by simp [Face.keyword]⟩
  | _ => exact ⟨_, _, rfl, by simp [Face.keyword]⟩

end Parser.TableElement

namespace CreateTable

structure Readable (d : Dialect) (t : CreateTable) : Prop where
  name : t.name.Readable d
  start : t.ifNotExists = false → (Face.first (t.name.faces d)).kind ≠ .keyword .ifWord
  columns : ∀ c ∈ t.columns, c.Readable d
  keys : ∀ c ∈ t.columns, forceKeysNotNull t.constraints c = c
  constraints : ∀ c ∈ t.constraints, c.Readable d
  options : ∀ o ∈ t.options, o.Readable d

-- No two tokens of a default or a check become one when they are printed.
structure Spaced (d : Dialect) (t : CreateTable) : Prop where
  columns : ∀ c ∈ t.columns, c.Spaced d
  constraints : ∀ c ∈ t.constraints, c.rule.Spaced d

instance (d : Dialect) : DecidablePred (Spaced d) := fun t =>
  decidable_of_iff ((∀ c ∈ t.columns, c.Spaced d) ∧ ∀ c ∈ t.constraints, c.rule.Spaced d)
    ⟨fun h => ⟨h.1, h.2⟩, fun h => ⟨h.columns, h.constraints⟩⟩

theorem forceKeysNotNull_idem (constraints : List Constraint) (c : Column) :
    forceKeysNotNull constraints (forceKeysNotNull constraints c) =
      forceKeysNotNull constraints c := by
  unfold forceKeysNotNull
  dsimp only
  split <;> rfl

theorem readable_forceKeysNotNull {constraints : List Constraint} {c : Column}
    (h : c.Readable d) : (forceKeysNotNull constraints c).Readable d := by
  unfold forceKeysNotNull
  dsimp only
  split
  · exact ⟨h.name, h.start, h.dataType, h.default, h.autoIncrement⟩
  · exact h

theorem yields_createTable : Yields d (Parser.createTable d) (Readable d) := by
  have hrest : ∀ (found : Bool) (name : ObjectName), name.Readable d →
      (found = false → (Face.first (name.faces d)).kind ≠ .keyword .ifWord) →
      Yields d (do
        let elements ← inParens .createTable .commaOrCloseParen (tableElements d name)
        let options ← tableOptions d
        let constraints := elements.flatMap TableElement.constraints
        let columns := elements.filterMap TableElement.column?
        return (⟨found, name, columns.map (forceKeysNotNull constraints), constraints, options⟩ :
          CreateTable)) (Readable d) := by
    intro found name hname hstart
    refine .bind (YieldsOrEnds.inParens TableElement.yields_tableElements) fun elements helements =>
      .bind TableOption.yields_tableOptions fun options hoptions => .pure ?_
    refine ⟨hname, hstart, ?_, ?_, ?_, hoptions⟩
    · intro c hc
      obtain ⟨c', hc', rfl⟩ := List.mem_map.mp hc
      obtain ⟨e, he, hcolumn⟩ := List.mem_filterMap.mp hc'
      refine readable_forceKeysNotNull ?_
      cases e with
      | column definition =>
          obtain rfl := Option.some.inj hcolumn
          exact (helements _ he).1
      | constraint c => cases hcolumn
    · intro c hc
      obtain ⟨c', -, rfl⟩ := List.mem_map.mp hc
      exact forceKeysNotNull_idem _ _
    · intro c hc
      obtain ⟨e, he, hmem⟩ := List.mem_flatMap.mp hc
      cases e with
      | column definition => exact (helements _ he).2 c hmem
      | constraint c' =>
          obtain rfl := List.mem_singleton.mp hmem
          exact helements _ he
  refine yields_ifNotExists ?_ fun t ht hk => ?_
  · exact .bind ObjectName.yields_objectName fun name hname => hrest true name hname (by simp)
  · refine .bind (ObjectName.yieldsAt_objectName ht) fun name hname =>
      hrest false name hname.1 fun _ => ?_
    rw [hname.2]
    exact hk

-- The entries of the table in the order in which they are printed.
def entries (t : CreateTable) : List TableElement :=
  t.columns.map (fun c => .column ⟨c, []⟩) ++ t.constraints.map .constraint

theorem map_text_entries (t : CreateTable) :
    t.entries.map TableElement.text = t.columns.map Column.sql ++ t.constraints.map Constraint.sql := by
  simp [entries, TableElement.text, Function.comp_def]

theorem filterMap_entries (t : CreateTable) :
    t.entries.filterMap TableElement.column? = t.columns := by
  simp [entries, List.filterMap_append, List.filterMap_map, Function.comp_def, TableElement.column?]

theorem flatMap_entries (t : CreateTable) :
    t.entries.flatMap TableElement.constraints = t.constraints := by
  simp [entries, List.flatMap_append, List.flatMap_map, TableElement.constraints]

def faces (d : Dialect) (t : CreateTable) : List Face :=
  (if t.ifNotExists then [.keyword .ifWord, .keyword .not, .keyword .existsWord] else []) ++
    (t.name.faces d ++ .symbol .leftParen ::
      (Face.separated (TableElement.faces d) t.entries ++ .symbol .rightParen ::
        t.options.flatMap (TableOption.faces d)))

variable {t : CreateTable}

theorem Readable.prints_entries (h : t.Readable d) (hs : t.Spaced d) :
    Prints d (",\n    ".intercalate (t.entries.map TableElement.text))
      (Face.separated (TableElement.faces d) t.entries) := by
  refine .separatedBy ",\n    " "\n    " rfl (by decide) fun e he => ?_
  rcases List.mem_append.mp he with he | he
  · obtain ⟨c, hc, rfl⟩ := List.mem_map.mp he
    exact (h.columns c hc).prints (hs.columns c hc)
  · obtain ⟨c, hc, rfl⟩ := List.mem_map.mp he
    exact (h.constraints c hc).prints (hs.constraints c hc)

theorem Readable.steps_entries (h : t.Readable d) {table : ObjectName} {Y : List Face}
    (hY : (Face.first Y).kind = .symbol .rightParen) :
    Steps (tableElements d table) (Face.separated (TableElement.faces d) t.entries ++ Y) t.entries
      Y := by
  have hitem : ∀ e ∈ t.entries, (∃ f X, e.faces d = f :: X ∧ f.kind ≠ .symbol .rightParen) ∧
      ∀ Y, Face.EndsEntry Y → Steps (tableElement d table) (e.faces d ++ Y) e Y := by
    intro e he
    rcases List.mem_append.mp he with he | he
    · obtain ⟨c, hc, rfl⟩ := List.mem_map.mp he
      exact ⟨TableElement.exists_head_column (h.columns c hc),
        fun Y hY => TableElement.steps_column (h.columns c hc) hY⟩
    · obtain ⟨c, hc, rfl⟩ := List.mem_map.mp he
      exact ⟨TableElement.exists_head_constraint c,
        fun Y hY => TableElement.steps_constraint (h.constraints c hc) hY⟩
  refine .bind (.check _) ?_
  cases hentries : t.entries with
  | nil =>
      have hempty : ((Face.first (Face.separated (TableElement.faces d) [] ++ Y)).kind ==
          .symbol .rightParen) = true := by
        simpa [Face.separated] using hY
      rw [hempty]
      exact .pure [] Y
  | cons e es =>
      rw [hentries] at hitem
      obtain ⟨f, X, hf, hk⟩ := (hitem e (by simp)).1
      have hnonempty : ((Face.first (Face.separated (TableElement.faces d) (e :: es) ++ Y)).kind ==
          .symbol .rightParen) = false := by
        rw [Face.separated, hf]
        exact beq_false_of_ne hk
      rw [hnonempty]
      exact .commaSeparated Face.EndsEntry (by simp) (fun e he Y hY => (hitem e he).2 Y hY)
        (fun Y => by simp [Face.EndsEntry]) (by simp [Face.EndsEntry, hY]) (by simp [hY])

theorem Readable.steps (h : t.Readable d) {Y : List Face}
    (hY : (Face.first Y).kind = .symbol .semicolon) :
    Steps (Parser.createTable d) (t.faces d ++ Y) t Y := by
  rw [faces]
  simp only [List.append_assoc, List.cons_append]
  refine .bind (steps_ifNotExists fun hfound => t.name.first_faces _ ▸ h.start hfound)
    (.bind (h.name.steps _ (by simp [Face.symbol])) (.bind (.inParens rfl (r := .symbol .rightParen) rfl
      (h.steps_entries rfl)) (.bind (TableOption.steps_tableOptions h.options hY) ?_)))
  rw [flatMap_entries, filterMap_entries]
  have hcolumns : t.columns.map (forceKeysNotNull t.constraints) = t.columns := by
    conv_rhs => rw [← List.map_id t.columns]
    exact List.map_congr_left h.keys
  show Steps (pure ⟨t.ifNotExists, t.name, t.columns.map (forceKeysNotNull t.constraints),
    t.constraints, t.options⟩) Y t Y
  rw [hcolumns]
  exact .pure t Y

-- The body of a table, between its parentheses.
def body (t : CreateTable) : String :=
  if t.entries.isEmpty then ""
  else "\n    " ++ ",\n    ".intercalate (t.entries.map TableElement.text) ++ "\n"

theorem space_leftParen (text : String) : " (" ++ text = " " ++ ("(" ++ text) := by
  rw [← String.append_assoc]
  rfl

theorem sql_eq (t : CreateTable) :
    t.sql = "CREATE TABLE " ++ ((if t.ifNotExists then "IF NOT EXISTS " else "") ++ (t.name.sql ++
      (" " ++ ("(" ++ (t.body ++ ")" ++ String.join (t.options.map fun o => " " ++ o.sql)))))) := by
  have hempty : (t.columns.map Column.sql ++ t.constraints.map Constraint.sql).isEmpty =
      t.entries.isEmpty := by
    rw [← map_text_entries, List.isEmpty_map]
  unfold sql body
  simp only [hempty]
  rw [← map_text_entries]
  simp only [String.append_assoc, space_leftParen]

theorem Readable.prints_body (h : t.Readable d) (hs : t.Spaced d) :
    Prints d (t.body ++ ")")
      (Face.separated (TableElement.faces d) t.entries ++ [.symbol .rightParen]) := by
  have hclosed : Prints d ")" [.symbol .rightParen] := Prints.empty.rightParen
  unfold body
  split
  · rename_i hempty
    have hnil : t.entries = [] := by simpa using hempty
    rw [hnil]
    simpa [Face.separated] using hclosed
  · have hlast : Prints d ("\n" ++ ")") [.symbol .rightParen] := .blanks (by decide) hclosed
    have hentries := (h.prints_entries hs).append hlast
      (separates_of_head (c := '\n') (by simp) (by decide))
    rw [String.append_assoc, String.append_assoc]
    exact .blanks (by decide) hentries

theorem Readable.prints (h : t.Readable d) (hs : t.Spaced d) :
    Prints d t.sql (.keyword .create :: .keyword .table :: t.faces d) := by
  have hoption : ∀ o ∈ t.options, Prints d (" " ++ o.sql) (o.faces d) ∧ Separates (" " ++ o.sql) :=
    fun o ho => ⟨(h.options o ho).prints.space, separates_space _⟩
  obtain ⟨hoptions, hbehind⟩ := Prints.join hoption
  have hbody := ((h.prints_body hs).append hoptions hbehind).leftParen.space
  have hname := h.name.prints.append hbody (separates_space _)
  have hall : Prints d t.sql ([Keyword.create, .table].map Face.keyword ++ _) :=
    t.sql_eq ▸
      (prints_ifNotExists t.ifNotExists hname).lead "CREATE TABLE " [.create, .table] rfl (by decide)
  simpa [faces] using hall

end CreateTable

end SchemaDiff
