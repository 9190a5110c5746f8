import SchemaDiff.Proofs.Column
import SchemaDiff.Proofs.Exchange.Parts

namespace SchemaDiff.Parser

variable {α : Type} {d : Dialect}

-- Parts of a text, each with what is read from it.
abbrev Parts (α : Type) := List (List Face × α)

namespace Parts

def faces (parts : Parts α) : List Face :=
  parts.flatMap Prod.fst

def values (parts : Parts α) : List α :=
  parts.map Prod.snd

-- The parts are what a loop reads round by round in front of the rest, where it ends.
inductive Read (step : Parser (Option α)) (rest : List Face) : Parts α → Prop
  | nil (h : Steps step rest none rest) : Read step rest []
  | cons {r : List Face} {a : α} {parts : Parts α}
      (h : Steps step (r ++ (parts.faces ++ rest)) (some a) (parts.faces ++ rest))
      (hparts : Read step rest parts) : Read step rest ((r, a) :: parts)

end Parts

section Tokens

variable {s u : Cursor} {k : TokenKind} {f : Face} {X Y : List Face}

theorem consume_eq_ok {b : Bool} (hend : k ≠ .endOfInput) (h : consume k s = .ok b u) :
    (b = true ∧ ∃ f, f.kind = k ∧ s.faces = f :: u.faces) ∨
      (b = false ∧ s.current.kind ≠ k ∧ u = s) := by
  by_cases hk : s.current.kind = k
  · rw [consume_eq_true hk] at h
    cases h
    exact .inl ⟨rfl, s.current.face, hk, ViableAt.faces_next (hk ▸ hend)⟩
  · rw [consume_eq_false hk] at h
    cases h
    exact .inr ⟨rfl, hk, rfl⟩

theorem expectKeyword_eq_ok {k : Keyword} {c : Context} (h : expectKeyword k c s = .ok () u) :
    ∃ f, f.kind = .keyword k ∧ s.faces = f :: u.faces := by
  obtain ⟨found, t, hfound, h⟩ := bind_eq_ok.mp h
  obtain ⟨rfl, hread⟩ | ⟨rfl, -⟩ := consume_eq_ok (by simp) hfound
  · cases h
    exact hread
  · cases h

theorem expectSymbol_eq_ok {k : Symbol} {e : Expected} {c : Context}
    (h : expectSymbol k e c s = .ok () u) : ∃ f, f.kind = .symbol k ∧ s.faces = f :: u.faces := by
  obtain ⟨found, t, hfound, h⟩ := bind_eq_ok.mp h
  obtain ⟨rfl, hread⟩ | ⟨rfl, -⟩ := consume_eq_ok (by simp) hfound
  · cases h
    exact hread
  · cases h

theorem ident_eq_ok {c : Context} {name : Ident} (h : ident c s = .ok name u) :
    ∃ f, identOf? f.token = some name ∧ s.faces = f :: u.faces := by
  have hname := current_bind_eq_ok.mp h
  split at hname
  · rename_i name' hname'
    cases hname
    exact ⟨s.current.face, hname', ViableAt.faces_next (Token.identOf?_ne hname').1⟩
  · cases hname

theorem steps_identOf {c : Context} {name : Ident} (h : identOf? f.token = some name) :
    Steps (ident c) (f :: Y) name Y := by
  refine .current fun t ht => ?_
  have hname : identOf? t = some name := by
    obtain rfl : t.face = f := ht
    exact h
  rw [hname]
  exact .advance fun _ _ => .pure name Y

theorem steps_columnIdentOf {c : Context} {name : Ident} (h : identOf? f.token = some name)
    (hY : (Face.first Y).kind ≠ .keyword .desc) (hY' : (Face.first Y).kind ≠ .keyword .asc) :
    Steps (columnIdent c) (f :: Y) (.ascending name) Y :=
  .bind (steps_identOf h) (.bind (.consume_false hY) (.bind (.consume_false hY') (.pure _ Y)))

-- The tokens of a list with one column.
def columnFaces (f : Face) : List Face :=
  [.symbol .leftParen, f, .symbol .rightParen]

theorem steps_columnFaces {c : Context} {name : Ident} (h : identOf? f.token = some name) :
    Steps (columnList c) (columnFaces f ++ Y) [.ascending name] Y :=
  .inParens rfl rfl (.commaSeparated_one (steps_columnIdentOf h (by simp [Face.symbol])
    (by simp [Face.symbol])) (by simp [Face.symbol]))

end Tokens

-- `CONSTRAINT name`, or nothing.
inductive Label : Option Ident → List Face → Prop
  | absent : Label none []
  | written {w f : Face} {name : Ident} (hw : w.kind = .keyword .constraint)
      (hf : identOf? f.token = some name) : Label (some name) [w, f]

namespace Label

variable {name : Option Ident} {label Y : List Face}

theorem steps (h : Label name label) (hY : (Face.first Y).kind ≠ .keyword .constraint) :
    Steps constraintName? (label ++ Y) name Y := by
  cases h with
  | absent => exact steps_noConstraintName hY
  | written hw hf => exact .bind (.consume_true hw) (.bind (steps_identOf hf) (.pure _ Y))

end Label

theorem exists_label {s u : Cursor} {name : Option Ident} (h : constraintName? s = .ok name u) :
    ∃ label, Label name label ∧ s.faces = label ++ u.faces ∧ (name = none → u = s) := by
  obtain ⟨found, t, hfound, hname⟩ := bind_eq_ok.mp h
  obtain ⟨rfl, w, hw, hs⟩ | ⟨rfl, -, rfl⟩ := consume_eq_ok (by simp) hfound
  · obtain ⟨i, v, hi, hpure⟩ := bind_eq_ok.mp hname
    obtain ⟨f, hf, ht⟩ := ident_eq_ok hi
    cases hpure
    exact ⟨[w, f], .written hw hf, by rw [hs, ht]; rfl, by simp⟩
  · cases hname
    exact ⟨[], .absent, rfl, fun _ => rfl⟩

-- A constraint that was declared with a column, written over the list of that column. A check says
-- what it is about by itself.
def overColumns (columns body : List Face) : List Face :=
  match (Face.first body).kind with
  | .keyword .references => .keyword .foreign :: .keyword .key :: (columns ++ body)
  | .keyword .check => body
  | _ => body ++ columns

-- The clause of a column as a constraint of the table. Its label stays in front.
def restated (columns clause : List Face) : List Face :=
  if (Face.first clause).kind = .keyword .constraint then
    clause.take 2 ++ overColumns columns (clause.drop 2)
  else overColumns columns clause

theorem Label.restated {name : Option Ident} {label : List Face} (h : Label name label)
    {columns body : List Face} (hbody : (Face.first body).kind ≠ .keyword .constraint) :
    restated columns (label ++ body) = label ++ overColumns columns body := by
  cases h with
  | absent => exact if_neg hbody
  | written hw hf => exact if_pos hw

-- What may stand behind a clause: another clause, or the end of the definition.
def BehindClause (Y : List Face) : Prop :=
  (Face.first Y).kind ∈ behindPart ∧
    ((Face.first Y).kind = .keyword .not → (Face.first Y.tail).kind = .keyword .null)

-- What ends an element of a table.
def EndsElement (Y : List Face) : Prop :=
  (Face.first Y).kind = .symbol .comma ∨ (Face.first Y).kind = .symbol .rightParen

theorem EndsElement.behindClause {Y : List Face} (h : EndsElement Y) : BehindClause Y := by
  rcases h with h | h <;> simp [BehindClause, behindPart, h]

theorem EndsElement.endsEntry {Y : List Face} (h : EndsElement Y) : Face.EndsEntry Y := by
  rcases h with h | h <;> simp [Face.EndsEntry, h]

theorem BehindClause.ne {Y : List Face} (h : BehindClause Y) {k : TokenKind} (hk : k ∉ behindPart) :
    (Face.first Y).kind ≠ k :=
  fun heq => hk (heq ▸ h.1)

def EndsInNot (r : List Face) : Prop :=
  r.getLast?.map Face.kind = some (.keyword .not)

-- The keyword without which an attribute cannot be written.
def ColumnClause.mark? : ColumnClause → Option Keyword
  | notNull | null => some .null
  | default _ => some .default
  | _ => none

-- The tokens are read as the clause wherever a clause may stand, unless a default ends in `NOT`. A
-- constraint with a name of its own, or of its own kind, may as well stand in the table.
structure IsClause (d : Dialect) (table : ObjectName) (column : Ident) (r : List Face)
    (c : ColumnClause) : Prop where
  begins : ∀ Z, BehindClause (r ++ Z)
  marked : ∀ k, c.mark? = some k → ∃ f ∈ r, f.kind = .keyword k
  steps : (∀ value, c = .default value → ¬EndsInNot r) → ∀ Y, BehindClause Y →
    Steps (columnClause? d table column) (r ++ Y) (some c) Y
  restated : ∀ constraint, c = .constraint constraint → (Face.first r).kind ≠ .keyword .check →
    ∀ f : Face, identOf? f.token = some column →
      (∀ Y, startsTableConstraint d (Face.first (restated (columnFaces f) r ++ Y)).token = true) ∧
      ∀ Y, EndsElement Y →
        Steps (tableConstraint d table) (restated (columnFaces f) r ++ Y) constraint Y

section Clauses

variable {table : ObjectName} {column : Ident} {name : Option Ident} {label : List Face} {s u : Cursor}

theorem Label.begins (h : Label name label) {f : Face} {k : Keyword} (hf : f.kind = .keyword k)
    (hk : k ∈ [Keyword.primary, .unique, .references, .check]) (r Z : List Face) :
    BehindClause (label ++ f :: r ++ Z) := by
  cases h with
  | absent =>
      simp only [List.mem_cons, List.not_mem_nil, or_false] at hk
      rcases hk with rfl | rfl | rfl | rfl <;> simp [BehindClause, behindPart, hf]
  | written hw _ => simp [BehindClause, behindPart, hw]

theorem startsTableConstraint_of_kind {f : Face} {k : Keyword} (hf : f.kind = .keyword k)
    (hk : k ∈ [Keyword.constraint, .primary, .foreign, .unique, .check]) :
    startsTableConstraint d f.token = true := by
  have hkeyword : f.token.keyword? = some k := keyword?_of_face rfl hf
  simp only [List.mem_cons, List.not_mem_nil, or_false] at hk
  rcases hk with rfl | rfl | rfl | rfl | rfl <;> simp [startsTableConstraint, hkeyword]

theorem Label.starts (h : Label name label) {f : Face} {k : Keyword} (hf : f.kind = .keyword k)
    (hk : k ∈ [Keyword.primary, .foreign, .unique, .check]) (r : List Face) :
    startsTableConstraint d (Face.first (label ++ f :: r)).token = true := by
  cases h with
  | absent => exact startsTableConstraint_of_kind hf (List.mem_cons_of_mem _ hk)
  | written hw _ => exact startsTableConstraint_of_kind hw (by simp)

theorem isClause_primaryKey (hlabel : Label name label) {p k : Face}
    (hp : p.kind = .keyword .primary) (hk : k.kind = .keyword .key) :
    IsClause d table column (label ++ [p, k]) (.constraint
      ⟨name.getD (Constraint.Naming.primaryKey d table), .primaryKey [.ascending column]⟩) where
  begins := hlabel.begins hp (by simp) [k]
  marked := by simp [ColumnClause.mark?]
  steps _ Y _ := by
    rw [List.append_assoc]
    refine .bind (hlabel.steps (by simp [hp])) (.current fun t ht => ?_)
    rw [keyword?_of_face ht hp]
    exact .advance fun _ _ => .bind (.expectKeyword hk) (.pure _ Y)
  restated := by
    rintro _ ⟨⟩ - f hf
    rw [hlabel.restated (by simp [hp])]
    have hover : overColumns (columnFaces f) [p, k] = p :: k :: columnFaces f := by
      simp [overColumns, hp]
    rw [hover]
    refine ⟨fun Y => by simpa using hlabel.starts hp (by simp) _, fun Y _ => ?_⟩
    rw [List.append_assoc]
    refine .bind (hlabel.steps (by simp [hp])) (.current fun t ht => ?_)
    rw [keyword?_of_face ht hp]
    exact .advance fun _ _ => .bind (.expectKeyword hk) (.bind (steps_columnFaces hf) (.pure _ Y))

-- Behind `UNIQUE` the word `KEY` may be left out.
theorem isClause_unique (hlabel : Label name label) {f : Face} {key : List Face}
    (hf : f.kind = .keyword .unique) (hkey : key = [] ∨ ∃ k, k.kind = .keyword .key ∧ key = [k]) :
    IsClause d table column (label ++ f :: key)
      (.constraint (uniqueConstraint d table name [.ascending column])) where
  begins := hlabel.begins hf (by simp) key
  marked := by simp [ColumnClause.mark?]
  steps _ Y hY := by
    have hconsume : ∃ found, Steps (consumeKeyword .key) (key ++ Y) found Y := by
      obtain rfl | ⟨k, hk, rfl⟩ := hkey
      · exact ⟨false, .consume_false (hY.ne (by decide))⟩
      · exact ⟨true, .consume_true hk⟩
    obtain ⟨found, hconsume⟩ := hconsume
    rw [List.append_assoc, List.cons_append]
    refine .bind (hlabel.steps (by simp [hf])) (.current fun t ht => ?_)
    rw [keyword?_of_face ht hf]
    exact .advance fun _ _ => .bind hconsume (.pure _ Y)
  restated := by
    rintro _ ⟨⟩ - c hc
    rw [hlabel.restated (by simp [hf])]
    have hover : overColumns (columnFaces c) (f :: key) = f :: (key ++ columnFaces c) := by
      simp [overColumns, hf]
    rw [hover]
    refine ⟨fun Y => by simpa using hlabel.starts hf (by simp) _, fun Y _ => ?_⟩
    have hindex : Steps uniqueIndexName? (key ++ (columnFaces c ++ Y)) none (columnFaces c ++ Y) := by
      have hparen : Steps indexName? (columnFaces c ++ Y) none (columnFaces c ++ Y) :=
        .bind (.check (.symbol .leftParen)) (.pure none _)
      obtain rfl | ⟨k, hk, rfl⟩ := hkey
      · exact .bind (.bind (.consume_false (by simp [columnFaces, Face.symbol]))
          (.consume_false (by simp [columnFaces, Face.symbol]))) (.pure none _)
      · exact .bind (.bind (.consume_true hk) (.pure true _)) hparen
    have hname : (name <|> (none : Option Ident)) = name := by cases name <;> rfl
    rw [List.append_assoc, List.cons_append, List.append_assoc]
    refine .bind (hlabel.steps (by simp [hf])) (.current fun t ht => ?_)
    rw [keyword?_of_face ht hf]
    refine .advance fun _ _ => .bind hindex (.bind (steps_columnFaces hc) ?_)
    rw [hname]
    exact .pure _ Y

theorem isClause_references (hlabel : Label name label) {target : Reference} {r : List Face}
    (hfirst : (Face.first r).kind = .keyword .references)
    (hr : ∀ Y, (Face.first Y).kind ∈ behindPart → Steps reference (r ++ Y) target Y) :
    IsClause d table column (label ++ r) (.constraint
      ⟨name.getD (Constraint.Naming.foreignKey d table [.ascending column]),
        .foreignKey [.ascending column] target⟩) := by
  obtain ⟨f, r, rfl⟩ : ∃ f r', r = f :: r' := by
    cases r with
    | nil => simp [Face.first] at hfirst
    | cons f r => exact ⟨f, r, rfl⟩
  rw [Face.first_cons] at hfirst
  refine ⟨hlabel.begins hfirst (by simp) r, by simp [ColumnClause.mark?], fun _ Y hY => ?_, ?_⟩
  · rw [List.append_assoc, List.cons_append]
    refine .bind (hlabel.steps (by simp [hfirst])) (.current fun t ht => ?_)
    rw [keyword?_of_face ht hfirst]
    exact .bind (.bind (hr Y hY.1) (.pure _ Y)) (.pure _ Y)
  · rintro _ ⟨⟩ - c hc
    rw [hlabel.restated (by simp [hfirst])]
    have hover : overColumns (columnFaces c) (f :: r) =
        .keyword .foreign :: .keyword .key :: (columnFaces c ++ f :: r) := by
      simp [overColumns, hfirst]
    rw [hover]
    refine ⟨fun Y => by
      rw [List.append_assoc, List.cons_append]
      exact hlabel.starts (k := .foreign) rfl (by simp) _, fun Y hY => ?_⟩
    rw [List.append_assoc, List.cons_append, List.cons_append, List.append_assoc]
    refine .bind (hlabel.steps (by simp [Face.keyword])) (.current fun t ht => ?_)
    rw [keyword?_of_face ht rfl]
    exact .advance fun _ _ => .bind (.expectKeyword rfl) (.bind (steps_columnFaces hc)
      (.bind (hr Y hY.behindClause.1) (.pure _ Y)))

theorem Steps.bind_pure {β γ : Type} {p : Parser α} {g : α → β} {b : β} {X Y : List Face}
    (h : Steps (p >>= fun a => Pure.pure (g a)) X b Y) (g' : β → γ) :
    Steps (p >>= fun a => Pure.pure (g' (g a))) X (g' b) Y := by
  have heq : (p >>= fun a => Pure.pure (g' (g a))) =
      (p >>= fun a => Pure.pure (g a)) >>= fun b => Pure.pure (g' b) := by
    simp only [bind_assoc, pure_bind]
  rw [heq]
  exact h.bind (.pure _ Y)

-- A body in parentheses, and the column that it names.
def checked : Parser (Expr × Option String) := do
  let body ← checkBody
  return (exprOf body, firstColumn? body)

theorem Rereads.checked : Rereads False .any checked :=
  checkBody fun _ _ h => by rw [exprOf_of_faces h, firstColumn?_of_faces h]

-- Only with a name the check is the same wherever it stands.
theorem isClause_check (hlabel : Label name label) {w : Face} {e : Expr × Option String}
    {r : List Face} (hw : w.kind = .keyword .check) (hr : ∀ Y, Steps checked (r ++ Y) e Y) :
    IsClause d table column (label ++ w :: r) (.constraint
      ⟨name.getD (Constraint.Naming.check d table column.name), .check e.1⟩) where
  begins := hlabel.begins hw (by simp) r
  marked := by simp [ColumnClause.mark?]
  steps _ Y _ := by
    rw [List.append_assoc, List.cons_append]
    refine .bind (hlabel.steps (by simp [hw])) (.current fun t ht => ?_)
    rw [keyword?_of_face ht hw]
    exact .advance fun _ _ => (hr Y).bind_pure fun (e : Expr × Option String) =>
      some (ColumnClause.constraint
        ⟨name.getD (Constraint.Naming.check d table column.name), .check e.1⟩)
  restated := by
    rintro _ ⟨⟩ hnamed f _
    cases hlabel with
    | absent => exact absurd hw hnamed
    | @written l i name hl hi =>
        have hlabel : Label (some name) [l, i] := .written hl hi
        rw [hlabel.restated (by simp [hw])]
        have hover : overColumns (columnFaces f) (w :: r) = w :: r := by simp [overColumns, hw]
        rw [hover]
        refine ⟨fun Y => startsTableConstraint_of_kind hl (by simp), fun Y _ => ?_⟩
        rw [List.append_assoc, List.cons_append]
        refine .bind (hlabel.steps (by simp [hw])) (.current fun t ht => ?_)
        rw [keyword?_of_face ht hw]
        exact .advance fun _ _ => (hr Y).bind_pure fun (e : Expr × Option String) =>
          (⟨name, .check e.1⟩ : Constraint)

-- An attribute is nothing that a table could hold.
theorem isClause_attribute {f : Face} {k : Keyword} {r : List Face} {c : ColumnClause}
    (hf : f.kind = .keyword k) (hk : k ∈ [Keyword.not, .null, .default, .autoIncrement])
    (hnull : k = .not → (Face.first r).kind = .keyword .null) (hc : c.constraint? = none)
    (hmark : ∀ k, c.mark? = some k → ∃ g ∈ f :: r, g.kind = .keyword k)
    (hr : (∀ value, c = .default value → ¬EndsInNot (f :: r)) → ∀ Y, BehindClause Y →
      Steps columnAttribute? (f :: (r ++ Y)) (some c) Y) :
    IsClause d table column (f :: r) c where
  begins Z := by
    simp only [List.mem_cons, List.not_mem_nil, or_false] at hk
    rcases hk with rfl | rfl | rfl | rfl
    · cases r with
      | nil => exact absurd (hnull rfl) (by simp [Face.first])
      | cons g r => simpa [BehindClause, behindPart, hf] using hnull rfl
    all_goals simp [BehindClause, behindPart, hf]
  marked := hmark
  steps hends Y hY := ColumnClause.steps_attribute table column hf hk (hr hends Y hY)
  restated := by
    rintro constraint rfl
    cases hc

-- What follows a token other than `NOT` does not matter.
theorem stopAt?_of_ne_not {place : ExprPlace} {depth : Nat} {isFirst : Bool} {t : Token}
    (h : t.kind ≠ .keyword .not) (next : Option Token) :
    stopAt? place depth isFirst t next = stopAt? place depth isFirst t none := by
  unfold stopAt?
  split <;> try rfl
  rename_i k hk
  have hclause : startsClause k next = startsClause k none := by
    cases k <;> first | rfl | exact absurd hk h
  rw [hclause]

theorem BehindClause.stops {t : Token} {rest : List Token}
    (h : BehindClause ((t :: rest).map Token.face)) :
    Stops .columnDefault 0 false ((t :: rest).map Token.kind) .complete := by
  obtain ⟨hkind, hnull⟩ := h
  have hkind : t.kind ∈ behindPart := hkind
  have hnull : t.kind = .keyword .not →
      (Face.first (rest.map Token.face)).kind = .keyword .null := hnull
  show stopAt? .columnDefault 0 false (kindToken t.kind) _ = some .complete
  simp only [behindPart, List.mem_cons, List.not_mem_nil, or_false] at hkind
  rcases hkind with hk | hk | hk | hk | hk | hk | hk | hk | hk | hk | hk
  case inr.inr.inl =>
    have hnext := hnull hk
    cases rest with
    | nil => simp [Face.first] at hnext
    | cons n rest =>
        have hnext : n.kind = .keyword .null := hnext
        rw [hk]
        simp [stopAt?, kindToken, startsClause, hnext]
  all_goals
    rw [hk]
    rfl

-- A default is read up to the next clause, whichever it is.
theorem isClause_default {w : Face} {body : List Token} {c : Context} (hw : w.kind = .keyword .default)
    (h : exprBody .columnDefault c s = .ok body u) (hend : ¬u.AtEnd) :
    IsClause d table column (w :: body.map Token.face) (.default (exprOf body)) := by
  obtain ⟨-, hne, hinside, hstops⟩ := exprBody_eq_ok h
  have hclosed : depthBehind (body.map Token.kind) 0 = 0 :=
    (depth_of_stops hstops).resolve_right fun hatEnd => hend hatEnd.2
  refine isClause_attribute hw (by simp) (by simp) rfl (by simp [ColumnClause.mark?, hw])
    fun hends Y hY => .current fun t ht => ?_
  rw [keyword?_of_face ht hw]
  refine .advance fun _ _ => .bind (a := exprOf body) (Y := Y) ?_ (.pure _ Y)
  refine steps_exprBody (fun _ _ => exprOf_of_faces) hne fun s' hs' => ?_
  obtain ⟨body', rest, hsplit, hbody, hrest⟩ := List.map_eq_append_iff.mp hs'
  refine ⟨body', rest, ?_, hbody, hrest⟩
  have hkinds : body'.map Token.kind = body.map Token.kind := by
    have h := congrArg (List.map Face.kind) hbody
    rwa [List.map_map, List.map_map] at h
  have hne' : body' ≠ [] := by
    rintro rfl
    exact hne (by simpa using hkinds.symm)
  rw [hsplit]
  refine splitExpr_of_none (fun front t back hfront => ?_) ?_
  · rw [← hkinds, hfront, List.map_append, List.map_cons] at hinside
    have hnone := hinside.stopAt?_eq_none
    rw [List.isEmpty_map] at hnone
    cases back with
    | nil =>
        -- Only of the last token it matters what follows, and only if it is `NOT`.
        have hlast : t.kind ≠ .keyword .not := by
          intro hnot
          refine hends _ rfl ?_
          rw [EndsInNot, ← hbody, hfront, List.map_append, List.map_singleton, ← List.cons_append,
            List.getLast?_concat, Option.map_some]
          exact congrArg some hnot
        rw [stopAt?_of_ne_not hlast, stopAt?_kind]
        simpa using hnone
    | cons b back =>
        rw [stopAt?_kind]
        simpa using hnone
  · have hnil : (true && body'.isEmpty) = false := by simpa using hne'
    rw [hnil, hkinds, hclosed]
    cases rest with
    | nil =>
        rw [← hrest] at hY
        simp [BehindClause, behindPart, Face.first] at hY
    | cons t rest =>
        rw [← hrest] at hY
        exact hY.stops

theorem exists_keyword {k : Keyword} (h : s.current.keyword? = some k) :
    ∃ f : Face, f.kind = .keyword k ∧ s.faces = f :: s.next.faces :=
  ⟨s.current.face, Token.kind_of_keyword? h, ViableAt.faces_next (Token.keyword?_ne h).1⟩

theorem isClause_of_columnAttribute? {c : ColumnClause} (h : columnAttribute? s = .ok (some c) u)
    (hend : ¬u.AtEnd) : ∃ r, s.faces = r ++ u.faces ∧ IsClause d table column r c := by
  have hclause := current_bind_eq_ok.mp h
  split at hclause
  · rename_i hk
    obtain ⟨f, hf, hs⟩ := exists_keyword hk
    have hrest := advance_bind_eq_ok.mp hclause
    obtain ⟨_, w, hnull, hpure⟩ := bind_eq_ok.mp hrest
    obtain ⟨n, hn, hnext⟩ := expectKeyword_eq_ok hnull
    cases hpure
    refine ⟨[f, n], by rw [hs, hnext]; rfl, isClause_attribute hf (by simp) (fun _ => hn) rfl
      (by simp [ColumnClause.mark?, hn]) fun _ Y _ => .current fun t ht => ?_⟩
    rw [keyword?_of_face ht hf]
    exact .advance fun _ _ => .bind (.expectKeyword hn) (.pure _ Y)
  · rename_i hk
    obtain ⟨f, hf, hs⟩ := exists_keyword hk
    have hpure := advance_bind_eq_ok.mp hclause
    cases hpure
    refine ⟨[f], hs, isClause_attribute hf (by simp) (by simp) rfl
      (by simp [ColumnClause.mark?, hf]) fun _ Y _ => .current fun t ht => ?_⟩
    rw [keyword?_of_face ht hf]
    exact .advance fun _ _ => .pure _ Y
  · rename_i hk
    obtain ⟨f, hf, hs⟩ := exists_keyword hk
    have hrest := advance_bind_eq_ok.mp hclause
    obtain ⟨value, w, hvalue, hpure⟩ := bind_eq_ok.mp hrest
    cases hpure
    obtain ⟨body, w, hbody, hpure'⟩ := bind_eq_ok.mp hvalue
    cases hpure'
    refine ⟨f :: body.map Token.face, ?_, isClause_default hf hbody hend⟩
    rw [hs, Cursor.faces, (exprBody_eq_ok hbody).1, List.map_append]
    rfl
  · rename_i hk
    obtain ⟨f, hf, hs⟩ := exists_keyword hk
    have hpure := advance_bind_eq_ok.mp hclause
    cases hpure
    refine ⟨[f], hs, isClause_attribute hf (by simp) (by simp) rfl
      (by simp [ColumnClause.mark?, hf]) fun _ Y _ => .current fun t ht => ?_⟩
    rw [keyword?_of_face ht hf]
    exact .advance fun _ _ => .pure _ Y
  · cases hclause

-- Every clause that the parser finds is one wherever it stands.
theorem isClause_of_columnClause? {c : ColumnClause}
    (h : columnClause? d table column s = .ok (some c) u) (hend : ¬u.AtEnd) :
    ∃ r, s.faces = r ++ u.faces ∧ IsClause d table column r c := by
  obtain ⟨name, v, hname, hbehind⟩ := bind_eq_ok.mp h
  obtain ⟨label, hlabel, hs, -⟩ := exists_label hname
  have hclause := current_bind_eq_ok.mp hbehind
  split at hclause
  · rename_i hk
    obtain ⟨p, hp, hv⟩ := exists_keyword hk
    have hrest := advance_bind_eq_ok.mp hclause
    obtain ⟨_, w, hkey, hpure⟩ := bind_eq_ok.mp hrest
    obtain ⟨k, hk, hnext⟩ := expectKeyword_eq_ok hkey
    cases hpure
    exact ⟨label ++ [p, k], by rw [hs, hv, hnext]; simp, isClause_primaryKey hlabel hp hk⟩
  · rename_i hk
    obtain ⟨f, hf, hv⟩ := exists_keyword hk
    have hrest := advance_bind_eq_ok.mp hclause
    obtain ⟨found, w, hkey, hpure⟩ := bind_eq_ok.mp hrest
    cases hpure
    obtain ⟨-, k, hk, hnext⟩ | ⟨-, -, rfl⟩ := consume_eq_ok (by simp) hkey
    · exact ⟨label ++ [f, k], by rw [hs, hv, hnext]; simp,
        isClause_unique hlabel hf (.inr ⟨k, hk, rfl⟩)⟩
    · exact ⟨label ++ [f], by rw [hs, hv]; simp, isClause_unique hlabel hf (.inl rfl)⟩
  · rename_i hk
    obtain ⟨f, hf, hv⟩ := exists_keyword hk
    obtain ⟨key, w, hkey, hpure⟩ := bind_eq_ok.mp hclause
    cases hpure
    obtain ⟨target, w, htarget, hpure'⟩ := bind_eq_ok.mp hkey
    cases hpure'
    obtain ⟨r, hr, hne, hsteps⟩ := Rereads.reference (E := .kinds behindPart)
      (Exchange.parted_kinds (List.Subset.refl _)) v target u htarget
    have hfirst : Face.first r = f := by
      rw [hr] at hv
      cases r with
      | nil => exact absurd rfl (hne trivial)
      | cons g r => exact (List.cons.inj hv).1
    exact ⟨label ++ r, by rw [hs, hr, List.append_assoc],
      isClause_references hlabel (hfirst ▸ hf) fun Y hY => hsteps Y (.inr hY)⟩
  · rename_i hk
    obtain ⟨f, hf, hv⟩ := exists_keyword hk
    have hrest := advance_bind_eq_ok.mp hclause
    obtain ⟨body, w, hbody, hpure⟩ := bind_eq_ok.mp hrest
    cases hpure
    obtain ⟨r, hr, -, hsteps⟩ := Rereads.checked v.next (exprOf body, firstColumn? body) u
      (bind_eq_ok.mpr ⟨body, u, hbody, rfl⟩)
    exact ⟨label ++ f :: r, by rw [hs, hv, hr]; simp,
      isClause_check hlabel hf fun Y => hsteps Y trivial⟩
  · split at hclause
    · cases hclause
    · rename_i hnone
      cases hlabel with
      | absent =>
          obtain ⟨r, hr, hattribute⟩ := isClause_of_columnAttribute? hclause hend
          exact ⟨r, by rw [hs, hr]; rfl, hattribute⟩
      | written => exact absurd rfl hnone

theorem eq_of_columnAttribute?_none (h : columnAttribute? s = .ok none u) : u = s := by
  have hclause := current_bind_eq_ok.mp h
  split at hclause
  case h_5 =>
    cases hclause
    rfl
  all_goals
    have hrest := advance_bind_eq_ok.mp hclause
    first
    | cases hrest
    | obtain ⟨_, w, -, hpure⟩ := bind_eq_ok.mp hrest
      cases hpure

-- Where there is no clause nothing is read.
theorem eq_of_columnClause?_none (h : columnClause? d table column s = .ok none u) : u = s := by
  obtain ⟨name, v, hname, hbehind⟩ := bind_eq_ok.mp h
  obtain ⟨label, -, -, hsame⟩ := exists_label hname
  have hclause := current_bind_eq_ok.mp hbehind
  split at hclause
  case h_5 =>
    split at hclause
    · cases hclause
    · rename_i hnone
      rw [← hsame (by simpa using hnone)]
      exact eq_of_columnAttribute?_none hclause
  case h_3 =>
    obtain ⟨_, w, -, hpure⟩ := bind_eq_ok.mp hclause
    cases hpure
  all_goals
    obtain ⟨t, v, -, hrest⟩ := bind_eq_ok.mp hclause
    obtain ⟨_, w, -, hpure⟩ := bind_eq_ok.mp hrest
    cases hpure

end Clauses

theorem BehindClause.not_atEnd {u : Cursor} (h : BehindClause u.faces) : ¬u.AtEnd := by
  have hkind : u.current.kind = (Face.first u.faces).kind := congrArg Face.kind u.face_current
  rintro (hend | hend)
  · exact h.ne (by decide) (hkind ▸ hend)
  · exact h.ne (by decide) (hkind ▸ hend)

section Texts

variable {table : ObjectName} {column : Ident} {rest : List Face} {parts : Parts ColumnClause}

theorem behindClause_faces (h : ∀ part ∈ parts, IsClause d table column part.1 part.2)
    (hrest : BehindClause rest) : BehindClause (parts.faces ++ rest) := by
  cases parts with
  | nil => exact hrest
  | cons part parts =>
      rw [Parts.faces, List.flatMap_cons, List.append_assoc]
      exact (h part (by simp)).begins _

-- Whatever the loop reads in front of the end is a clause wherever it stands.
theorem Parts.Read.isClause (h : parts.Read (columnClause? d table column) rest)
    (hrest : BehindClause rest) : ∀ part ∈ parts, IsClause d table column part.1 part.2 := by
  induction h with
  | nil => simp
  | @cons r c parts hstep _ ih =>
      refine List.forall_mem_cons.mpr ⟨?_, ih⟩
      obtain ⟨u, hread, hu⟩ := hstep _ (Cursor.faces_ofFaces _)
      have hbehind : BehindClause u.faces := hu ▸ behindClause_faces ih hrest
      obtain ⟨r', hr', hclause⟩ := isClause_of_columnClause? hread hbehind.not_atEnd
      rw [Cursor.faces_ofFaces, hu] at hr'
      rwa [List.append_cancel_right hr']

-- The clauses of a column definition, as far as the definition is ended by something else.
theorem exists_clauses {s u : Cursor} {clauses : List ColumnClause}
    (h : many (columnClause? d table column) s = .ok clauses u) (hend : ¬u.AtEnd) :
    ∃ parts : Parts ColumnClause, parts.values = clauses ∧ s.faces = parts.faces ++ u.faces ∧
      parts.Read (columnClause? d table column) u.faces := by
  have hclause := Rereads.columnClause? (d := d) table column
  induction s using many.induct (columnClause? d table column) generalizing clauses with
  | case1 s e t hstep =>
      rw [many, hstep] at h
      cases h
  | case2 s t hstep =>
      rw [many, hstep] at h
      cases h
      obtain rfl := eq_of_columnClause?_none hstep
      exact ⟨[], rfl, rfl, .nil (hclause.steps hstep (Exchange.pair_refl _))⟩
  | case3 s c t hstep hlt clauses v hrest ih =>
      rw [many, hstep] at h
      simp only [if_pos hlt, hrest] at h
      cases h
      obtain ⟨r, hr, -, hsteps⟩ := hclause s _ t hstep
      obtain ⟨parts, rfl, hparts, hread⟩ := ih hrest
      rw [hparts] at hr hsteps
      exact ⟨(r, c) :: parts, rfl, by rw [hr]; simp [Parts.faces],
        .cons (hsteps _ (Exchange.pair_refl _)) hread⟩
  | case4 s c t hstep hlt e v hrest ih =>
      rw [many, hstep] at h
      simp only [if_pos hlt, hrest] at h
      cases h
  | case5 s c t hstep hlt =>
      rw [many, hstep] at h
      simp only [if_neg hlt] at h
      cases h
      -- A clause takes a token at least.
      obtain ⟨r, hr, hclause⟩ := isClause_of_columnClause? hstep hend
      have hbegins := (hclause.begins []).1
      simp [nil_of_not_lt hr hlt, Face.first, behindPart] at hbegins

end Texts

end SchemaDiff.Parser
