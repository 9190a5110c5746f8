import SchemaDiff.Proofs.RoundTrip

namespace SchemaDiff

open SchemaDiff.Parser

variable {d : Dialect}

namespace ObjectName

-- The identifier that the name begins with.
def head (n : ObjectName) : Ident :=
  n.schema.getD n.name

-- The name begins with the bare word `IF`, in any letter case.
def BeginsWithIf (n : ObjectName) : Prop :=
  n.head.quote = none ∧ Text.upper n.head.raw = Keyword.ifWord.text

instance : DecidablePred BeginsWithIf :=
  fun n => inferInstanceAs (Decidable (n.head.quote = none ∧ _ = _))

theorem Readable.head {n : ObjectName} (h : n.Readable d) : n.head.Readable d := by
  unfold ObjectName.head
  cases hs : n.schema with
  | none => exact h.name
  | some schema => exact h.schema schema hs

theorem first_faces_eq (n : ObjectName) (Y : List Face) :
    Face.first (n.faces d ++ Y) = n.head.face d := by
  unfold faces head
  cases n.schema <;> rfl

-- Nothing but a dot stands behind the first word inside a name.
theorem second_faces (n : ObjectName) {Y : List Face} {k : Keyword}
    (hY : (Face.first Y).kind ≠ .keyword k) :
    ∃ X, n.faces d ++ Y = n.head.face d :: X ∧ (Face.first X).kind ≠ .keyword k := by
  unfold faces head
  cases n.schema with
  | none => exact ⟨Y, rfl, hY⟩
  | some schema => exact ⟨_, rfl, by simp [Face.symbol]⟩

end ObjectName

-- A common keyword is told by its letters.
theorem Token.wordKind_eq_keyword {text : String} {k : Keyword} (hk : k.isDialectSpecific = false) :
    Token.wordKind d text = .keyword k ↔ Text.upper text = k.text := by
  have hfound : ∀ word, Keyword.ofWord? word = some k → Text.upper word = k.text := by
    intro word h
    have htext : k.text = Text.upper word := by simpa using List.find?_some h
    exact htext.symm
  have hword : Token.wordKind d text = .keyword k ↔ d.keyword? text = some k := by
    unfold Token.wordKind
    cases d.keyword? text <;> simp
  rw [hword, Dialect.keyword?, Option.filter_eq_some_iff]
  constructor
  · exact fun h => hfound text h.1
  · intro h
    have hupper : Text.upper k.text = k.text := hfound k.text (Face.ofWord?_text k)
    refine ⟨?_, by simp [hk]⟩
    rw [← Face.ofWord?_text k, Keyword.ofWord?, Keyword.ofWord?, h, hupper]

theorem Parser.isWordKind_of_identOf? {t : Token} {i : Ident} (h : identOf? t = some i) :
    Token.isWordKind t.kind = true ↔ i.quote = none := by
  unfold identOf? at h
  split at h
  · rename_i hk
    cases h
    simp [hk, Token.isWordKind, Ident.bare]
  · rename_i q hk
    cases h
    simp [hk, Token.isWordKind, Ident.ofLiteral]
  · rename_i k hk
    split at h
    · cases h
    · cases h
      simp [hk, Token.isWordKind, Ident.bare]
  · cases h

theorem Ident.Readable.kind_eq_ifWord {i : Ident} (h : i.Readable d) :
    (i.face d).kind = .keyword .ifWord ↔
      i.quote = none ∧ Text.upper i.raw = Keyword.ifWord.text := by
  have hbare : Token.isWordKind (i.face d).kind = true ↔ i.quote = none :=
    isWordKind_of_identOf? h.read
  rw [← hbare]
  constructor
  · intro hk
    have hw : Token.isWordKind (i.face d).kind = true := by rw [hk]; rfl
    have hkind := (Token.isWord_of_genuine h.genuine hw).2
    rw [Ident.face_literal, hk] at hkind
    exact ⟨hw, (Token.wordKind_eq_keyword rfl).mp hkind.symm⟩
  · rintro ⟨hw, htext⟩
    have hkind := (Token.isWord_of_genuine h.genuine hw).2
    rw [Ident.face_literal] at hkind
    rw [hkind, Token.wordKind_eq_keyword rfl]
    exact htext

namespace Parser

variable {n : ObjectName} {Y : List Face} {c : Context}

theorem steps_ifExists {found : Bool} (hn : n.Readable d) (hif : found = false → ¬n.BeginsWithIf) :
    Steps (ifExists c) (Statement.ifExistsFaces found ++ (n.faces d ++ Y)) found (n.faces d ++ Y) := by
  cases found with
  | true => exact .bind (.consume_true rfl) (.bind (.expectKeyword rfl) (.pure true _))
  | false =>
      have hfirst : (Face.first (n.faces d ++ Y)).kind ≠ .keyword .ifWord := by
        rw [n.first_faces_eq]
        exact fun hk => hif rfl (hn.head.kind_eq_ifWord.mp hk)
      exact .bind (.consume_false hfirst) (.pure false _)

-- A name that begins with `IF` is taken for the condition that could stand in front of it.

theorem fails_ifExists (hn : n.Readable d) (hif : n.BeginsWithIf)
    (hY : (Face.first Y).kind ≠ .keyword .existsWord) : Fails (ifExists c) (n.faces d ++ Y) := by
  obtain ⟨X, hX, hsecond⟩ := n.second_faces (d := d) hY
  rw [hX]
  exact .behind (.consume_true (hn.head.kind_eq_ifWord.mpr hif)) (.bind (.expectKeyword hsecond))

theorem fails_ifNotExists (hn : n.Readable d) (hif : n.BeginsWithIf)
    (hY : (Face.first Y).kind ≠ .keyword .not) : Fails (ifNotExists c) (n.faces d ++ Y) := by
  obtain ⟨X, hX, hsecond⟩ := n.second_faces (d := d) hY
  rw [hX]
  exact .behind (.consume_true (hn.head.kind_eq_ifWord.mpr hif)) (.bind (.expectKeyword hsecond))

end Parser

theorem prints_ifExists (found : Bool) {text : String} {faces : List Face}
    (h : Prints d text faces) :
    Prints d (Statement.ifExistsSql found ++ text) (Statement.ifExistsFaces found ++ faces) := by
  cases found with
  | true => exact .lead "IF EXISTS " [.ifWord, .existsWord] rfl (by decide) h
  | false => simpa [Statement.ifExistsSql, Statement.ifExistsFaces] using h

namespace Statement

-- Every part of the statement can be read again on its own.
def Legible (d : Dialect) : Statement → Prop
  | createTable t => t.Readable d
  | createIndex i => i.Parts d
  | alterTable name change => name.Readable d ∧ change.Readable d
  | dropTable _ name => name.Readable d
  | dropIndex _ name table => name.Readable d ∧ ∀ t ∈ table, t.Readable d

-- No two tokens of an expression become one when the statement is printed.
def Unmerged (d : Dialect) : Statement → Prop
  | alterTable _ change => change.Spaced d
  | s => s.Spaced d

instance (d : Dialect) : DecidablePred (Unmerged d)
  | alterTable _ change => inferInstanceAs (Decidable (change.Spaced d))
  | createTable t => inferInstanceAs (Decidable (t.Spaced d))
  | createIndex i => inferInstanceAs (Decidable (i.Spaced d))
  | dropTable _ _ | dropIndex _ _ _ => isTrue trivial

-- Where `IF EXISTS` or `IF NOT EXISTS` could stand, a name begins with `IF` itself.
def Misread : Statement → Prop
  | createTable t => t.ifNotExists = false ∧ t.name.BeginsWithIf
  | createIndex i => i.ifNotExists = false ∧ i.name.BeginsWithIf
  | dropTable ifExists name | dropIndex ifExists name _ => ifExists = false ∧ name.BeginsWithIf
  | alterTable _ _ => False

instance : DecidablePred Misread
  | createTable t => inferInstanceAs (Decidable (t.ifNotExists = false ∧ t.name.BeginsWithIf))
  | createIndex i => inferInstanceAs (Decidable (i.ifNotExists = false ∧ i.name.BeginsWithIf))
  | dropTable ifExists name | dropIndex ifExists name _ =>
      inferInstanceAs (Decidable (ifExists = false ∧ name.BeginsWithIf))
  | alterTable _ _ => isFalse id

variable {s : Statement}

theorem Legible.prints (h : s.Legible d) (hs : s.Unmerged d) : Prints d s.text (s.faces d) := by
  cases s with
  | createTable t => exact CreateTable.Readable.prints h hs
  | createIndex i => exact CreateIndex.Parts.prints h hs
  | alterTable name change =>
      obtain ⟨hname, hchange⟩ := h
      have hboth := hname.prints.append (hchange.prints hs).space (separates_space _)
      have hall := hboth.lead "ALTER TABLE " [.alter, .table] rfl (by decide)
      rwa [← String.append_assoc, ← String.append_assoc] at hall
  | dropTable ifExists name =>
      have hname := prints_ifExists ifExists (ObjectName.Readable.prints h)
      have hall := hname.lead "DROP TABLE " [.drop, .table] rfl (by decide)
      rwa [← String.append_assoc] at hall
  | dropIndex ifExists name table =>
      obtain ⟨hname, htable⟩ := h
      obtain ⟨hon, hseparates⟩ : Prints d (table.elim "" (" ON " ++ ·.sql)) (onTableFaces d table) ∧
          Separates (table.elim "" (" ON " ++ ·.sql)) := by
        cases table with
        | none => exact ⟨.empty, separates_empty⟩
        | some t => exact (htable t rfl).prints.spacedLead " ON " [.onWord] rfl (by decide)
      have hnamed := prints_ifExists ifExists (hname.prints.append hon hseparates)
      have hall := hnamed.lead "DROP INDEX " [.drop, .index] rfl (by decide)
      rwa [← String.append_assoc, ← String.append_assoc] at hall

theorem steps_alterTable {name : ObjectName} {change : TableChange} (hname : name.Readable d)
    (hchange : change.Readable d) {Y : List Face}
    (hY : (Face.first Y).kind = .symbol .semicolon) :
    Steps (Parser.alterTable d) ((alterTable name change).faces d ++ Y) [alterTable name change] Y := by
  have hdot : (Face.first (change.faces d ++ Y)).kind ≠ .symbol .dot := by
    cases change <;> simp [TableChange.faces, Face.keyword]
  simp only [faces, List.cons_append, List.append_assoc]
  exact .bind (.expectKeyword rfl) (.bind (.expectKeyword rfl) (.bind (hname.steps _ hdot)
    (.bind (.commaSeparated_one (hchange.steps hY) (by simp [hY])) (.pure _ Y))))

theorem steps_dropTable {ifExists : Bool} {name : ObjectName} (hname : name.Readable d)
    (hif : ¬(dropTable ifExists name).Misread) {Y : List Face}
    (hY : (Face.first Y).kind = .symbol .semicolon) :
    Steps drop ((dropTable ifExists name).faces d ++ Y) (dropTable ifExists name) Y := by
  simp only [faces, List.cons_append, List.append_assoc]
  exact .bind (.expectKeyword rfl) (.bind (.consume_true rfl)
    (.bind (steps_ifExists hname fun hfound hn => hif ⟨hfound, hn⟩)
      (.bind (hname.steps _ (by simp [hY])) (.pure _ Y))))

theorem steps_dropIndex {ifExists : Bool} {name : ObjectName} {table : Option ObjectName}
    (hname : name.Readable d) (htable : ∀ t ∈ table, t.Readable d)
    (hif : ¬(dropIndex ifExists name table).Misread) {Y : List Face}
    (hY : (Face.first Y).kind = .symbol .semicolon) :
    Steps drop ((dropIndex ifExists name table).faces d ++ Y) (dropIndex ifExists name table) Y := by
  have hguard : ∀ Z, Steps (Parser.ifExists .dropIndex) (ifExistsFaces ifExists ++ (name.faces d ++ Z))
      ifExists (name.faces d ++ Z) :=
    fun _ => steps_ifExists hname fun hfound hn => hif ⟨hfound, hn⟩
  simp only [faces, List.cons_append, List.append_assoc]
  refine .bind (.expectKeyword rfl) (.bind (.consume_false (by simp [Face.keyword]))
    (.bind (.consume_true rfl) (.bind (hguard _) ?_)))
  cases table with
  | none =>
      exact .bind (hname.steps _ (by simp [onTableFaces, hY]))
        (.bind (.consume_false (by simp [onTableFaces, hY])) (.pure _ Y))
  | some t =>
      exact .bind (hname.steps _ (by simp [onTableFaces, Face.keyword]))
        (.bind (.consume_true rfl) (.bind ((htable t rfl).steps _ (by simp [hY])) (.pure _ Y)))

theorem Legible.rereads (h : s.Legible d) (hm : ¬s.Misread) : s.Rereads d := by
  intro Y hY
  have hstart : ∀ {n : ObjectName} {found : Bool}, n.Readable d → ¬(found = false ∧ n.BeginsWithIf) →
      found = false → (Face.first (n.faces d)).kind ≠ .keyword .ifWord := by
    intro n found hn hif hfound hk
    rw [← List.append_nil (n.faces d), n.first_faces_eq] at hk
    exact hif ⟨hfound, hn.head.kind_eq_ifWord.mp hk⟩
  cases s with
  | createTable t => exact Statement.rereads (s := .createTable t) trivial h Y hY
  | createIndex i =>
      have hreadable : i.Readable d := ⟨h, hstart h.name hm⟩
      exact Statement.rereads (s := .createIndex i) trivial hreadable Y hY
  | alterTable name change =>
      refine .current fun t ht => ?_
      have hkind : t.kind = .keyword .alter := congrArg Face.kind ht
      rw [hkind]
      exact .bind (steps_alterTable h.1 h.2 hY) (.bind (steps_statementEnd hY) (.pure _ Y))
  | dropTable ifExists name =>
      refine .current fun t ht => ?_
      have hkind : t.kind = .keyword .drop := congrArg Face.kind ht
      rw [hkind]
      exact .bind (steps_dropTable h hm hY) (.bind (steps_statementEnd hY) (.pure _ Y))
  | dropIndex ifExists name table =>
      refine .current fun t ht => ?_
      have hkind : t.kind = .keyword .drop := congrArg Face.kind ht
      rw [hkind]
      exact .bind (steps_dropIndex h.1 h.2 hm hY) (.bind (steps_statementEnd hY) (.pure _ Y))

theorem Legible.fails (h : s.Legible d) (hm : s.Misread) {Y : List Face}
    (hY : (Face.first Y).kind = .symbol .semicolon) :
    Fails (statements? d) (s.faces d ++ Y) := by
  refine .current fun t ht => ?_
  cases s with
  | createTable t =>
      obtain ⟨hfound, hn⟩ := hm
      refine absurd ?_ (CreateTable.Readable.start h hfound)
      rw [← List.append_nil (t.name.faces d), t.name.first_faces_eq]
      exact (CreateTable.Readable.name h).head.kind_eq_ifWord.mpr hn
  | createIndex i =>
      obtain ⟨hfound, hn⟩ := hm
      have hkind : t.kind = .keyword .create := congrArg Face.kind ht
      have hindex : ∀ Z, Fails (Parser.createIndex i.unique) (i.faces d ++ Z) := by
        intro Z
        simp only [CreateIndex.faces, hfound, List.append_assoc]
        exact .bind (fails_ifNotExists h.name hn (by simp [Face.keyword]))
      rw [hkind]
      cases hu : i.unique with
      | true =>
          rw [hu] at hindex
          simp only [faces, hu, Rule.indexKeywords, if_true]
          exact .bind (.behind (.expectKeyword rfl) (.behind (.consume_true rfl)
            (.behind (.expectKeyword rfl) (.bind (hindex Y)))))
      | false =>
          rw [hu] at hindex
          simp only [faces, hu, Rule.indexKeywords]
          exact .bind (.behind (.expectKeyword rfl) (.behind (.consume_false (by simp [Face.keyword]))
            (.behind (.consume_true rfl) (.bind (hindex Y)))))
  | alterTable name change => exact absurd hm id
  | dropTable ifExists name =>
      obtain ⟨rfl, hn⟩ := hm
      have hkind : t.kind = .keyword .drop := congrArg Face.kind ht
      rw [hkind]
      exact .bind (.behind (.expectKeyword rfl) (.behind (.consume_true rfl)
        (.bind (fails_ifExists h hn (by simp [hY])))))
  | dropIndex ifExists name table =>
      obtain ⟨rfl, hn⟩ := hm
      have hkind : t.kind = .keyword .drop := congrArg Face.kind ht
      have hbehind : (Face.first (onTableFaces d table ++ Y)).kind ≠ .keyword .existsWord := by
        cases table <;> simp [onTableFaces, Face.keyword, hY]
      rw [hkind]
      simp only [faces, List.cons_append, List.append_assoc]
      exact .bind (.behind (.expectKeyword rfl) (.behind (.consume_false (by simp [Face.keyword]))
        (.behind (.consume_true rfl) (.bind (fails_ifExists h.1 hn hbehind)))))

end Statement

namespace Script

variable {s : Script}

-- The first statement that is misread ends the reading.
theorem fails_many (h : ∀ statement ∈ s, statement.Legible d)
    (hm : ∃ statement ∈ s, statement.Misread) : Fails (many (statements? d)) (faces d s) := by
  induction s with
  | nil => simp at hm
  | cons statement s ih =>
      have hlegible := h statement (by simp)
      rw [faces_cons]
      by_cases hfirst : statement.Misread
      · exact .many (hlegible.fails hfirst rfl)
      · have hrest : ∃ statement ∈ s, statement.Misread := by simpa [hfirst] using hm
        refine .many_cons (hlegible.rereads hfirst _ rfl) (statement.length_behind _)
          (.many_cons (Statement.steps_semicolon _) (by simp) ?_)
        exact ih (fun x hx => h x (by simp [hx])) hrest

-- A script is read again from its text, unless one of its statements is misread.
theorem parse_sql_of_legible (h : ∀ statement ∈ s, statement.Legible d)
    (hs : ∀ statement ∈ s, statement.Unmerged d) :
    ((∀ statement ∈ s, ¬statement.Misread) → Script.parse d (Script.sql s) = .ok s) ∧
      ((∃ statement ∈ s, statement.Misread) → ∃ e, Script.parse d (Script.sql s) = .error e) := by
  have hlex := lexesTo_of_prints fun x hx => (h x hx).prints (hs x hx)
  constructor
  · intro hm
    have hsteps : Steps (Parser.script d) (faces d s) s [] := by
      refine .bind (steps_of_rereads fun x hx => (h x hx).rereads (hm x hx)) ?_
      rw [flatten_readings]
      exact .pure s []
    obtain ⟨s', hscript, -⟩ := hsteps (.ofText d (Script.sql s)) hlex.ofText
    unfold Script.parse
    rw [hscript]
  · intro hm
    have hfails : Fails (Parser.script d) (faces d s) := .bind (fails_many h hm)
    obtain ⟨e, s', hscript⟩ := hfails (.ofText d (Script.sql s)) hlex.ofText
    refine ⟨e, ?_⟩
    unfold Script.parse
    rw [hscript]

end Script

end SchemaDiff
