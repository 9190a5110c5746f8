import SchemaDiff.Proofs.Index

namespace SchemaDiff

open SchemaDiff.Parser

variable {d : Dialect}

-- The default of a column can be set by a statement of its own as well.
theorem Expr.Readable.statement {e : Expr} (h : e.Readable d .columnDefault) :
    e.Readable d .statement := by
  have hinside : ∀ (kinds : List TokenKind) (depth : Nat) (isFirst : Bool),
      Inside .columnDefault depth isFirst kinds → Inside .statement depth isFirst kinds := by
    intro kinds
    induction kinds with
    | nil => exact fun _ _ _ => trivial
    | cons k kinds ih =>
        rintro depth isFirst ⟨hk, hrest⟩
        refine ⟨?_, ih _ _ hrest⟩
        cases k with
        | keyword k => simp [stopAt?, kindToken]
        | symbol s =>
            cases s with
            | comma => simpa [stopAt?, kindToken] using hk
            | _ => exact hk
        | _ => exact hk
  exact ⟨h.ne_nil, h.genuine, hinside _ _ _ h.inside, fun hne => absurd rfl hne⟩

namespace ColumnChange

def Readable (d : Dialect) : ColumnChange → Prop
  | setDataType dataType => dataType.Readable d
  | setDefault value => value.Readable d .statement
  | dropDefault | setNotNull | dropNotNull => True

-- No two tokens of a new default become one when it is printed.
def Spaced (d : Dialect) : ColumnChange → Prop
  | setDefault value => value.Spaced d
  | _ => True

instance (d : Dialect) : DecidablePred (Spaced d)
  | setDefault value => inferInstanceAs (Decidable (value.Spaced d))
  | setDataType _ | dropDefault | setNotNull | dropNotNull => isTrue trivial

def sql : ColumnChange → String := spelled Ident.raw

def keywords : ColumnChange → List Keyword
  | setDataType _ => [.set, .data, .type]
  | setDefault _ => [.set, .default]
  | dropDefault => [.drop, .default]
  | setNotNull => [.set, .not, .null]
  | dropNotNull => [.drop, .not, .null]

-- What stands behind the keywords.
def valueFaces (d : Dialect) : ColumnChange → List Face
  | setDataType dataType => dataType.faces d
  | setDefault value => value.faces d
  | dropDefault | setNotNull | dropNotNull => []

def faces (d : Dialect) (c : ColumnChange) : List Face :=
  c.keywords.map Face.keyword ++ c.valueFaces d

variable {c : ColumnChange}

theorem Readable.prints (h : c.Readable d) (hs : c.Spaced d) : Prints d c.sql (c.faces d) := by
  cases c with
  | setDataType dataType =>
      exact (DataType.Readable.prints h).lead "SET DATA TYPE " [.set, .data, .type] rfl (by decide)
  | setDefault value =>
      exact (Expr.Readable.prints h hs).lead "SET DEFAULT " [.set, .default] rfl (by decide)
  | dropDefault => exact .commonPhrase [.drop, .default] (by decide)
  | setNotNull => exact .commonPhrase [.set, .not, .null] (by decide)
  | dropNotNull => exact .commonPhrase [.drop, .not, .null] (by decide)

theorem Readable.steps (h : c.Readable d) {Y : List Face}
    (hY : (Face.first Y).kind = .symbol .semicolon) :
    Steps (columnChange d) (c.faces d ++ Y) c Y := by
  have hfollows : DataType.Follows Y := by simp [DataType.Follows, hY]
  have hother : ∀ (k k' : Keyword) (Z : List Face), k ≠ k' →
      (Face.first (Face.keyword k :: Z)).kind ≠ .keyword k' := by
    simp [Face.keyword]
  refine .current fun t ht => ?_
  cases c with
  | setDataType dataType =>
      rw [keyword?_of_face ht rfl]
      exact .advance fun _ _ => .bind (.consume_true rfl) (.bind (.expectKeyword rfl)
        (.bind (DataType.Readable.steps h hfollows) (.pure _ Y)))
  | setDefault value =>
      rw [keyword?_of_face ht rfl]
      exact .advance fun _ _ => .bind (.consume_false (hother .default .data _ (by decide)))
        (.bind (.consume_true rfl) (.bind (steps_expr h _ hY) (.pure _ Y)))
  | dropDefault =>
      rw [keyword?_of_face ht rfl]
      exact .advance fun _ _ => .bind (.consume_true rfl) (.pure _ Y)
  | setNotNull =>
      rw [keyword?_of_face ht rfl]
      exact .advance fun _ _ => .bind (.consume_false (hother .not .data _ (by decide)))
        (.bind (.consume_false (hother .not .default _ (by decide)))
          (.bind (.consume_true rfl) (.bind (.expectKeyword rfl) (.pure _ Y))))
  | dropNotNull =>
      rw [keyword?_of_face ht rfl]
      exact .advance fun _ _ => .bind (.consume_false (hother .not .default _ (by decide)))
        (.bind (.consume_true rfl) (.bind (.expectKeyword rfl) (.pure _ Y)))

end ColumnChange

namespace TableChange

-- The change is one that the dialect has, and it can be read again from its text.
def Readable (d : Dialect) : TableChange → Prop
  | renameTable new => new.Readable d
  | renameColumn old new | renameConstraint old new => old.Readable d ∧ new.Readable d
  | addColumn column => column.Readable d
  | dropColumn name | dropConstraint name => name.Readable d
  | alterColumn name change => name.Readable d ∧ change.Readable d
  | modifyColumn column =>
      column.Readable d ∧ d.keyword? Keyword.modify.text = some .modify
  | addConstraint constraint notValid =>
      constraint.Readable d ∧ (notValid = true → d.keyword? Keyword.valid.text = some .valid)

-- No two tokens of an expression become one when the change is printed.
def Spaced (d : Dialect) : TableChange → Prop
  | addColumn column | modifyColumn column => column.Spaced d
  | alterColumn _ change => change.Spaced d
  | addConstraint constraint _ => constraint.rule.Spaced d
  | _ => True

instance (d : Dialect) : DecidablePred (Spaced d)
  | addColumn column | modifyColumn column => inferInstanceAs (Decidable (column.Spaced d))
  | alterColumn _ change => inferInstanceAs (Decidable (change.Spaced d))
  | addConstraint constraint _ => inferInstanceAs (Decidable (constraint.rule.Spaced d))
  | renameTable _ | renameColumn _ _ | renameConstraint _ _ | dropColumn _ | dropConstraint _ =>
      isTrue trivial

def faces (d : Dialect) : TableChange → List Face
  | renameTable new => [.keyword .rename, .keyword .toWord, new.face d]
  | renameColumn old new =>
      [.keyword .rename, .keyword .column, old.face d, .keyword .toWord, new.face d]
  | renameConstraint old new =>
      [.keyword .rename, .keyword .constraint, old.face d, .keyword .toWord, new.face d]
  | addColumn column => .keyword .add :: .keyword .column :: column.faces d
  | dropColumn name => [.keyword .drop, .keyword .column, name.face d]
  | alterColumn name change =>
      .keyword .alter :: .keyword .column :: name.face d :: change.faces d
  | modifyColumn column => .keyword .modify :: .keyword .column :: column.faces d
  | addConstraint constraint notValid => .keyword .add :: (constraint.faces d ++
      if notValid then [.keyword .not, .keyword .valid] else [])
  | dropConstraint name => [.keyword .drop, .keyword .constraint, name.face d]

theorem prints_rename {old new : Ident} (hold : old.Readable d) (hnew : new.Readable d) :
    Prints d (old.raw ++ " TO " ++ new.raw) [old.face d, .keyword .toWord, new.face d] := by
  obtain ⟨hto, hseparates⟩ := hnew.prints.spacedLead " TO " [.toWord] rfl (by decide)
  rw [String.append_assoc]
  exact hold.prints.append hto hseparates

theorem prints_notValid {notValid : Bool}
    (h : notValid = true → d.keyword? Keyword.valid.text = some .valid) :
    Prints d (if notValid then " NOT VALID" else "")
        (if notValid then [Face.keyword .not, .keyword .valid] else []) ∧
      Separates (if notValid then " NOT VALID" else "") := by
  cases notValid with
  | false => exact ⟨.empty, separates_empty⟩
  | true =>
      have hphrase : Prints d (phrase [.not, .valid]) [Face.keyword .not, .keyword .valid] :=
        .phrase fun k hk => by
          simp only [List.mem_cons, List.not_mem_nil, or_false] at hk
          rcases hk with rfl | rfl
          · exact Face.keyword?_text d rfl
          · exact h rfl
      exact ⟨hphrase.space, separates_of_head (c := ' ') (by simp) (by decide)⟩

variable {c : TableChange}

theorem Readable.prints (h : c.Readable d) (hs : c.Spaced d) : Prints d c.sql (c.faces d) := by
  cases c with
  | renameTable new =>
      have h : new.Readable d := h
      exact h.prints.lead "RENAME TO " [.rename, .toWord] rfl (by decide)
  | renameColumn old new =>
      obtain ⟨hold, hnew⟩ := h
      have hall := (prints_rename hold hnew).lead "RENAME COLUMN " [.rename, .column] rfl (by decide)
      rwa [← String.append_assoc, ← String.append_assoc] at hall
  | renameConstraint old new =>
      obtain ⟨hold, hnew⟩ := h
      have hall := (prints_rename hold hnew).lead "RENAME CONSTRAINT " [.rename, .constraint] rfl
        (by decide)
      rwa [← String.append_assoc, ← String.append_assoc] at hall
  | addColumn column =>
      have h : column.Readable d := h
      exact (h.prints hs).lead "ADD COLUMN " [.add, .column] rfl (by decide)
  | dropColumn name =>
      have h : name.Readable d := h
      exact h.prints.lead "DROP COLUMN " [.drop, .column] rfl (by decide)
  | alterColumn name change =>
      obtain ⟨hname, hchange⟩ := h
      have hboth := hname.prints.append (hchange.prints hs).space (separates_space _)
      have hall := hboth.lead "ALTER COLUMN " [.alter, .column] rfl (by decide)
      rwa [← String.append_assoc, ← String.append_assoc] at hall
  | modifyColumn column =>
      have hcolumn : Prints d ("COLUMN " ++ column.sql) (.keyword .column :: column.faces d) :=
        (h.1.prints hs).lead "COLUMN " [.column] rfl (by decide)
      have htext : (modifyColumn column).sql =
          Keyword.modify.text ++ (" " ++ ("COLUMN " ++ column.sql)) := by
        rw [← String.append_assoc, ← String.append_assoc]
        rfl
      rw [htext]
      exact (Prints.keyword h.2).append hcolumn.space (separates_space _)
  | addConstraint constraint notValid =>
      obtain ⟨hvalid, hseparates⟩ := prints_notValid h.2
      exact ((h.1.prints hs).append hvalid hseparates).lead "ADD " [.add] rfl (by decide)
  | dropConstraint name =>
      have h : name.Readable d := h
      exact h.prints.lead "DROP CONSTRAINT " [.drop, .constraint] rfl (by decide)

end TableChange

namespace Parser

variable {Y : List Face}

theorem steps_notValid {found : Bool} (hY : (Face.first Y).kind = .symbol .semicolon) :
    Steps notValid ((if found then [Face.keyword .not, .keyword .valid] else []) ++ Y) found Y := by
  refine .bind (.check _) (.peek? fun next hnext => ?_)
  cases found with
  | false =>
      have hnot : ((Face.first Y).kind == .keyword .not) = false := beq_false_of_ne (by simp [hY])
      simp only [Bool.false_eq_true, if_false, List.nil_append, hnot, Bool.false_and]
      exact .pure false Y
  | true =>
      have hvalid : next.any (·.kind == .keyword .valid) = true := by
        obtain ⟨t, rfl, ht⟩ : ∃ t, next = some t ∧ t.face = Face.keyword .valid := by
          simpa using hnext
        have hkind : t.kind = .keyword .valid := congrArg Face.kind ht
        simp [hkind]
      rw [hvalid]
      exact .advance fun _ _ => .advance fun _ _ => .pure true Y

theorem steps_addedColumn {c : Column} (h : c.Readable d) {table : ObjectName}
    (hY : Face.EndsEntry Y) :
    Steps (addedColumn d table) (c.faces d ++ Y) [.addColumn c] Y :=
  .bind (h.steps hY) (.pure _ Y)

theorem steps_addConstraint {c : Constraint} (h : c.Readable d) {table : ObjectName}
    (notValid : Bool) (hY : (Face.first Y).kind = .symbol .semicolon) :
    Steps (addChange d table) (c.faces d ++ ((if notValid then [Face.keyword .not, .keyword .valid]
      else []) ++ Y)) [.addConstraint c notValid] Y := by
  have hfollows : Reference.Follows
      ((if notValid then [Face.keyword .not, .keyword .valid] else []) ++ Y) := by
    cases notValid <;> simp [Reference.Follows, Face.keyword, hY]
  have hcolumn : ∀ Z, (Face.first (c.faces d ++ Z)).kind ≠ .keyword .column := by
    obtain ⟨name, rule⟩ := c
    cases rule with
    | index isUnique columns =>
        cases isUnique <;> simp [Constraint.faces, Rule.indexKeywords, Face.keyword]
    | _ => simp [Constraint.faces, Face.keyword]
  refine .bind (.consume_false (hcolumn _)) (.current fun t ht => ?_)
  rw [TableElement.starts_of_face h ht]
  exact .bind (h.steps hfollows) (.bind (steps_notValid hY) (.pure _ Y))

end Parser

namespace TableChange

variable {c : TableChange}

theorem Readable.steps (h : c.Readable d) {table : ObjectName} {Y : List Face}
    (hY : (Face.first Y).kind = .symbol .semicolon) :
    Steps (tableChanges d table) (c.faces d ++ Y) [c] Y := by
  have hends : Face.EndsEntry Y := by simp [Face.EndsEntry, hY]
  refine .current fun t ht => ?_
  cases c with
  | renameTable new =>
      rw [keyword?_of_face ht rfl]
      exact .advance fun _ _ => .bind (.bind (.consume_true rfl) (.bind (steps_ident h _ Y)
        (.pure _ Y))) (.pure _ Y)
  | renameColumn old new =>
      rw [keyword?_of_face ht rfl]
      exact .advance fun _ _ => .bind (.bind (.consume_false (by simp [Face.keyword]))
        (.bind (.consume_true rfl) (.bind (steps_ident h.1 _ _) (.bind (.expectKeyword rfl)
          (.bind (steps_ident h.2 _ Y) (.pure _ Y)))))) (.pure _ Y)
  | renameConstraint old new =>
      rw [keyword?_of_face ht rfl]
      exact .advance fun _ _ => .bind (.bind (.consume_false (by simp [Face.keyword]))
        (.bind (.consume_false (by simp [Face.keyword])) (.bind (.consume_true rfl)
          (.bind (steps_ident h.1 _ _) (.bind (.expectKeyword rfl)
            (.bind (steps_ident h.2 _ Y) (.pure _ Y))))))) (.pure _ Y)
  | addColumn column =>
      rw [keyword?_of_face ht rfl]
      exact .advance fun _ _ => .bind (.consume_true rfl) (steps_addedColumn h hends)
  | dropColumn name =>
      rw [keyword?_of_face ht rfl]
      exact .advance fun _ _ => .bind (.bind (.consume_true rfl) (.bind (steps_ident h _ Y)
        (.pure _ Y))) (.pure _ Y)
  | alterColumn name change =>
      rw [keyword?_of_face ht rfl]
      exact .advance fun _ _ => .bind (.bind (.consume_true rfl) (.bind (steps_ident h.1 _ _)
        (.bind (h.2.steps hY) (.pure _ Y)))) (.pure _ Y)
  | modifyColumn column =>
      rw [keyword?_of_face ht rfl]
      exact .advance fun _ _ => .bind (.bind (.consume_true rfl) (.current fun _ _ =>
        .bind (h.1.steps hends) (.pure _ Y))) (.pure _ Y)
  | addConstraint constraint notValid =>
      rw [keyword?_of_face ht rfl]
      simp only [faces, List.cons_append, List.append_assoc]
      exact .advance fun _ _ => steps_addConstraint h.1 notValid hY
  | dropConstraint name =>
      rw [keyword?_of_face ht rfl]
      exact .advance fun _ _ => .bind (.bind (.consume_false (by simp [Face.keyword]))
        (.bind (.consume_true rfl) (.bind (steps_ident h _ Y) (.pure _ Y)))) (.pure _ Y)

end TableChange

end SchemaDiff
