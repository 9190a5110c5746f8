import SchemaDiff.Proofs.Column
import SchemaDiff.Proofs.Expr.Nesting
import SchemaDiff.Proofs.Parser.Onward
import SchemaDiff.Proofs.Position
import SchemaDiff.Proofs.Token.Coverage

namespace SchemaDiff

open SchemaDiff.Parser SchemaDiff.Text

variable {d : Dialect} {text : String} {e : ParseError}

namespace Cursor.LeadsTo

variable {o : Cursor}

-- The parser sees the tokens of the text without the comments, and then the end of input.
theorem current_mem (h : (Cursor.ofText d text).LeadsTo o) :
    o.current ∈ Token.scan d text ∧ o.current.kind ≠ .comment := by
  obtain ⟨ahead, stop⟩ := o
  obtain rfl := h.stop
  cases ahead with
  | nil =>
      obtain ⟨front, hscan, -⟩ := (Scanner.covers_tokens (d := d) (Scanner.ofText text)).ends
      rw [Scanner.ofText, Nat.zero_add, utf8Length_toList] at hscan
      refine ⟨?_, by simp [current, Token.atEnd]⟩
      rw [Token.scan, Scanner.ofText, hscan]
      exact List.mem_append_right front (List.mem_singleton.mpr rfl)
  | cons t rest =>
      have ht : t ∈ Token.significant (Token.scan d text) := h.suffix.subset List.mem_cons_self
      simp only [Token.significant, List.mem_filter, Bool.and_eq_true, bne_iff_ne] at ht
      exact ⟨ht.1, ht.2.1⟩

end Cursor.LeadsTo

namespace ParseError

-- A token stands where none of the expected ones was found.
def IsMismatch (d : Dialect) (text : String) (e : ParseError) : Prop :=
  ∃ t ∈ Token.scan d text, t.kind ≠ .comment ∧ e.span = t.span ∧
    e.found? = some t.literal ∧ IsAt text.toList e.span t.literal.toList

-- The bracket is the first of the expression behind `opening` that is open beyond the bound.
structure ExceedsAt (place : ExprPlace) (body : List Token) (bracket : Token) : Prop where
  inside : Inside place 0 true (body.map Token.kind)
  within : ∀ part, part <+: body → depthBehind (part.map Token.kind) 0 ≤ maxNesting
  opens : ∃ b : Bracket, bracket.kind = .symbol b.opening
  exceeds : depthBehind ((body ++ [bracket]).map Token.kind) 0 = maxNesting + 1
  -- The depth is the number of open brackets as long as they match.
  opened : ∀ opened, Bracket.openBehind? (body.map Token.literal) = some opened →
    opened.length = maxNesting

def IsTooDeep (d : Dialect) (text : String) (e : ParseError) : Prop :=
  ∃ front opening body bracket back place c,
    Token.significant (Token.scan d text) = front ++ opening ++ body ++ bracket :: back ∧
      OpensExpr (opening.map Token.kind) place c ∧ ExceedsAt place body bracket ∧
        e = ⟨.nestingTooDeep bracket.span, c⟩

-- `MODIFY` is followed by the definition of a column, and the definition holds constraints.
def IsRefusal (d : Dialect) (text : String) (e : ParseError) : Prop :=
  ∃ front opening column back table definition u,
    Token.significant (Token.scan d text) = front ++ opening ++ column :: back ∧
      OpensModify (opening.map Token.kind) ∧
        columnDefinition d table ⟨column :: back, text.utf8ByteSize⟩ = .ok definition u ∧
          identOf? column = some definition.column.name ∧ definition.constraints ≠ [] ∧
            e = ⟨.constraintOnModify column.span, .alterTableAction⟩

structure PointsAtCause (d : Dialect) (text : String) (e : ParseError) : Prop where
  inText : ∃ before cs after, text.toList = before ++ cs ++ after ∧
    utf8Length before = e.span.start ∧ utf8Length (before ++ cs) = e.span.stop ∧
      e.position text = .after before
  mismatch : ∀ expected, e.expected? = some expected → e.IsMismatch d text
  otherwise : e.expected? = none → e.IsTooDeep d text ∨ e.IsRefusal d text

end ParseError

theorem Token.isAt_of_mem {t : Token} (h : t ∈ Token.scan d text) :
    IsAt text.toList t.span t.literal.toList :=
  (Scanner.covers_tokens (d := d) (Scanner.ofText text)).literals (r := []) t h

-- The opening bracket at which a body is given up is the first one that is too deep.
theorem Parser.exceedsAt_of_exprBody {place : ExprPlace} {c : Context} {s u : Cursor} {span : Span}
    (hs : s.Scanned d) (h : exprBody place c s = .error ⟨.nestingTooDeep span, c⟩ u) :
    ∃ body bracket back, s.ahead = body ++ bracket :: back ∧ span = bracket.span ∧
      ParseError.ExceedsAt place body bracket := by
  obtain ⟨body, bracket, back, hahead, hu, hinside, ⟨b, hb⟩, hle⟩ := exprBody_tooDeep h rfl
  have hspan : span = bracket.span := by
    obtain ⟨-, ⟨expected, he⟩ | he⟩ := exprBody_eq_error h
    · cases he
    · cases he
      rw [Cursor.current, hu]
  have hwithin : ∀ part, part <+: body → depthBehind (part.map Token.kind) 0 ≤ maxNesting := by
    rintro part ⟨more, rfl⟩
    rw [List.map_append] at hinside
    exact hinside.depthBehind_le (Nat.zero_le _)
  have hdepth : depthBehind (body.map Token.kind) 0 = maxNesting :=
    Nat.le_antisymm (hwithin body (List.prefix_refl _)) hle
  have hgenuine : ∀ t ∈ body, t.face.Genuine d := fun t ht => by
    obtain ⟨hend, hillegal⟩ := hinside.ne t.kind (List.mem_map_of_mem ht)
    exact hs t (by simp [hahead, ht]) hend hillegal
  refine ⟨body, bracket, back, hahead, hspan, hinside, hwithin, ⟨b, hb⟩, ?_, fun opened hopened => ?_⟩
  · rw [List.map_append, depthBehind, List.foldl_append]
    show depthAfter (depthBehind (body.map Token.kind) 0) (kindToken bracket.kind) = _
    rw [hdepth, hb, Bracket.depthAfter_opening]
  · rw [Bracket.length_of_tokens hgenuine hopened, hdepth]

theorem Parser.columnDefinition_eq_ok {table : ObjectName} {s u : Cursor}
    {definition : ColumnDefinition} (h : columnDefinition d table s = .ok definition u) :
    identOf? s.current = some definition.column.name := by
  obtain ⟨name, v, hname, h⟩ := bind_eq_ok.mp h
  obtain ⟨type, v', -, h⟩ := bind_eq_ok.mp h
  obtain ⟨clauses, v'', -, hpure⟩ := bind_eq_ok.mp h
  cases hpure
  rw [ColumnClause.applied_ofClauses.name]
  have hident := current_bind_eq_ok.mp hname
  split at hident
  · rename_i hident'
    cases hident
    exact hident'
  · cases hident

namespace Parser.Raised

variable {o u : Cursor}

theorem isMismatch {expected : Expected} (h : Raised d o e u) (ho : (Cursor.ofText d text).LeadsTo o)
    (hexpected : e.expected? = some expected) : e.IsMismatch d text := by
  cases h with
  | mismatch expected hint c =>
      obtain ⟨hmem, hcomment⟩ := ho.current_mem
      exact ⟨o.current, hmem, hcomment, rfl, rfl, Token.isAt_of_mem hmem⟩
  | tooDeep hopens hreads hbody => cases hexpected
  | refused hopens hreads hdefinition hconstraints => cases hexpected

theorem isTooDeep_or_isRefusal (h : Raised d o e u) (ho : (Cursor.ofText d text).LeadsTo o)
    (hexpected : e.expected? = none) : e.IsTooDeep d text ∨ e.IsRefusal d text := by
  obtain ⟨front, hfront⟩ := ho.suffix
  replace hfront : front ++ o.ahead = Token.significant (Token.scan d text) := hfront
  cases h with
  | mismatch expected hint c => cases hexpected
  | @tooDeep kinds place c v u span hopens hreads hbody =>
      obtain ⟨opening, hopening, rfl⟩ := hreads.tokens
      have hscanned : v.Scanned d := (Cursor.Scanned.ofText d text).of_subset
        (ho.trans hreads.leadsTo).suffix.subset
      obtain ⟨body, bracket, back, hahead, rfl, hexceeds⟩ := exceedsAt_of_exprBody hscanned hbody
      have htokens : Token.significant (Token.scan d text) =
          front ++ opening ++ body ++ bracket :: back := by
        rw [hopening, hahead] at hfront
        simpa using hfront.symm
      exact .inl ⟨front, opening, body, bracket, back, place, c, htokens, hopens, hexceeds, rfl⟩
  | @refused kinds table v u definition hopens hreads hdefinition hconstraints =>
      obtain ⟨opening, hopening, rfl⟩ := hreads.tokens
      have hname := columnDefinition_eq_ok hdefinition
      obtain ⟨ahead, stop⟩ := v
      obtain rfl : stop = text.utf8ByteSize := hreads.stop.trans ho.stop
      cases ahead with
      | nil => cases hname
      | cons column back =>
          have htokens : Token.significant (Token.scan d text) =
              front ++ opening ++ column :: back := by
            rw [hopening] at hfront
            simpa using hfront.symm
          exact .inr ⟨front, opening, column, back, table, definition, u, htokens, hopens,
            hdefinition, hname, hconstraints, rfl⟩

end Parser.Raised

-- An error stands at the token that is its cause.
theorem Script.parse_pointsAtCause (h : Script.parse d text = .error e) :
    e.PointsAtCause d text := by
  obtain ⟨o, u, ho, hraised⟩ := exists_raised h
  obtain ⟨v, hv, -, hspan⟩ := hraised.stands
  obtain ⟨before, after, htext, hstart, hstop⟩ := Token.isAt_of_mem (ho.trans hv).current_mem.1
  refine ⟨⟨before, v.current.literal.toList, after, htext, ?_, ?_, ?_⟩, fun _ => hraised.isMismatch ho,
    hraised.isTooDeep_or_isRefusal ho⟩
  · rw [hspan, hstart]
  · rw [hspan, hstop]
  · rw [ParseError.position, hspan, ← hstart]
    exact Position.ofOffset_utf8Length (htext.trans (List.append_assoc _ _ _))

def deepPredicate : String :=
  "CREATE INDEX i ON t (a) WHERE " ++ String.ofList (List.replicate 65 '(')

-- One error of each kind. The first one stands behind a line and a letter of two bytes, the second one
-- at the last bracket, and the third one at the name of the column, not at its constraint.
theorem Script.parse_pointsAtCause_each :
    (∃ e, Script.parse .postgres "CREATE\n/* é */ VIEW" = .error e ∧
      e.span = ⟨16, 20⟩ ∧ e.position "CREATE\n/* é */ VIEW" = ⟨2, 9⟩ ∧
        e.found? = some "VIEW" ∧ e.IsMismatch .postgres "CREATE\n/* é */ VIEW") ∧
    (∃ e, Script.parse .cockroach deepPredicate = .error e ∧ e.span = ⟨94, 95⟩ ∧
      e.expected? = none ∧ (e.IsTooDeep .cockroach deepPredicate ∨
        e.IsRefusal .cockroach deepPredicate)) ∧
    ∃ e, Script.parse .mysql "ALTER TABLE t MODIFY COLUMN a INT UNIQUE" = .error e ∧
      e.span = ⟨28, 29⟩ ∧ e.expected? = none ∧
        (e.IsTooDeep .mysql "ALTER TABLE t MODIFY COLUMN a INT UNIQUE" ∨
          e.IsRefusal .mysql "ALTER TABLE t MODIFY COLUMN a INT UNIQUE") := by
  have hview : Script.parse .postgres "CREATE\n/* é */ VIEW" = .error ⟨.unexpected .tableOrIndex
      ⟨.identifier, "VIEW", ⟨16, 20⟩⟩ none, .createStatement⟩ := by
    decide +kernel
  have hdeep : Script.parse .cockroach deepPredicate =
      .error ⟨.nestingTooDeep ⟨94, 95⟩, .indexPredicate⟩ := by
    decide +kernel
  have hmodify : Script.parse .mysql "ALTER TABLE t MODIFY COLUMN a INT UNIQUE" =
      .error ⟨.constraintOnModify ⟨28, 29⟩, .alterTableAction⟩ := by
    decide +kernel
  exact ⟨⟨_, hview, rfl, by decide +kernel, rfl, (parse_pointsAtCause hview).mismatch _ rfl⟩,
    ⟨_, hdeep, rfl, rfl, (parse_pointsAtCause hdeep).otherwise rfl⟩,
    ⟨_, hmodify, rfl, rfl, (parse_pointsAtCause hmodify).otherwise rfl⟩⟩

end SchemaDiff
