import SchemaDiff.Proofs.Contents
import SchemaDiff.Proofs.Expr.Nesting
import SchemaDiff.Proofs.Parser.Onward

namespace SchemaDiff

open SchemaDiff.Parser

variable {d : Dialect}

namespace Expr

variable {place : ExprPlace} {e : Expr}

theorem literals_faces (e : Expr) : (e.faces d).map Face.literal = e.raws := by
  simp [faces, raws, Ident.face]

theorem Gathered.genuine_faces (h : e.Gathered d place) : ∀ f ∈ e.faces d, f.Genuine d := by
  intro f hf
  obtain ⟨i, hi, rfl⟩ := List.mem_map.mp hf
  exact (h.genuine i hi).1

theorem Gathered.nestsWithin (h : e.Gathered d place) : Bracket.NestsWithin maxNesting e.raws := by
  rw [← e.literals_faces]
  exact Bracket.nestsWithin_of_inside h.genuine_faces h.inside

theorem Gathered.wellNested_iff (h : e.Gathered d place) :
    Bracket.WellNested e.raws ↔ ¬Bracket.Mispaired e.raws ∧ ¬Bracket.LeavesOpen e.raws := by
  rw [← e.literals_faces]
  exact Bracket.wellNested_iff h.genuine_faces h.inside

theorem Readable.not_leavesOpen (h : e.Readable d place) (hplace : place ≠ .statement) :
    ¬Bracket.LeavesOpen e.raws := by
  rw [← e.literals_faces]
  exact Bracket.not_leavesOpen h.gathered.genuine_faces (h.closed hplace)

end Expr

namespace Script

def enclosed (s : Script) : List Expr :=
  s.flatMap Statement.enclosed

-- What the parser makes of the brackets of the expressions in a text.
structure Nests (d : Dialect) (text : String) : Prop where
  within : ∀ s, parse d text = .ok s → ∀ e ∈ exprs s, Bracket.NestsWithin maxNesting e.raws
  matched : ∀ s, parse d text = .ok s → ∀ e ∈ exprs s,
    (Bracket.WellNested e.raws ↔ ¬Bracket.Mispaired e.raws ∧ ¬Bracket.LeavesOpen e.raws)
  closed : ∀ s, parse d text = .ok s → ∀ e ∈ enclosed s,
    (Bracket.WellNested e.raws ↔ ¬Bracket.Mispaired e.raws)
  -- Only expressions are refused for their nesting, and none of them in front of the end of a body
  -- whose nesting is within the bound.
  raised : ∀ e bracket, parse d text = .error e → e.fault = .nestingTooDeep bracket →
    ∃ place c s u, (Cursor.ofText d text).LeadsTo s ∧ exprBody place c s = .error e u
  refused : ∀ place c s e u bracket body rest, (Cursor.ofText d text).LeadsTo s →
    exprBody place c s = .error e u → e.fault = .nestingTooDeep bracket → s.ahead = body ++ rest →
      Bracket.WellNested (body.map Token.literal) →
        Bracket.NestsWithin maxNesting (body.map Token.literal) → u.ahead <:+ rest
  collected : ∀ place c s body rest, (Cursor.ofText d text).LeadsTo s → s.ahead = body ++ rest →
    Bracket.WellNested (body.map Token.literal) →
      Bracket.NestsWithin maxNesting (body.map Token.literal) → body ≠ [] →
        Unbroken place body rest → Stops place 0 false (rest.map Token.kind) .complete →
          exprBody place c s = .ok body { s with ahead := rest }

theorem scanned_of_leadsTo {text : String} {s : Cursor} (h : (Cursor.ofText d text).LeadsTo s) :
    s.Scanned d :=
  (Cursor.Scanned.ofText d text).of_subset h.suffix.subset

theorem exists_of_nestingTooDeep {text : String} {e : ParseError} {bracket : Span}
    (h : parse d text = .error e) (hf : e.fault = .nestingTooDeep bracket) :
    ∃ place c s u, (Cursor.ofText d text).LeadsTo s ∧ exprBody place c s = .error e u := by
  obtain ⟨o, u, ho, hraised⟩ := exists_raised h
  obtain ⟨place, c, s, hs, hbody⟩ := hraised.exists_exprBody hf
  exact ⟨place, c, s, u, ho.trans hs, hbody⟩

theorem nests (d : Dialect) (text : String) : Nests d text := by
  constructor
  · intro s h e he
    obtain ⟨place, hgathered⟩ := gathered_exprs h e he
    exact hgathered.nestsWithin
  · intro s h e he
    obtain ⟨place, hgathered⟩ := gathered_exprs h e he
    exact hgathered.wellNested_iff
  · intro s h e he
    obtain ⟨statement, hs, hmem⟩ := List.mem_flatMap.mp he
    obtain ⟨place, hplace, hreadable⟩ := (gathered_of_parse h statement hs).enclosed e hmem
    rw [hreadable.gathered.wellNested_iff]
    exact and_iff_left (hreadable.not_leavesOpen hplace)
  · intro e bracket h hf
    exact exists_of_nestingTooDeep h hf
  · intro place c s e u bracket body rest hs h hf hbody hnested hwithin
    exact suffix_of_tooDeep (scanned_of_leadsTo hs) hbody hnested hwithin h hf
  · intro place c s body rest hs hbody hnested hwithin hne hothers hends
    exact exprBody_of_wellNested (scanned_of_leadsTo hs) hbody hnested hwithin hne hothers hends

def subscriptCheck : Expr :=
  ⟨["(", "b", "[", "1", "]", ")", ">", "0"].map .bare⟩

def deepDefault : String :=
  "CREATE TABLE t (a INT DEFAULT " ++ String.ofList (List.replicate 65 '(')

theorem nests_subscriptCheck : (∃ s,
    parse .postgres "CREATE TABLE t (a INT, CHECK ((b[1]) > 0));" = .ok s ∧
      subscriptCheck ∈ enclosed s ∧ ¬Bracket.Mispaired subscriptCheck.raws ∧
        Bracket.NestsWithin maxNesting subscriptCheck.raws) ∧
    ∃ e, parse .postgres deepDefault = .error e ∧ e.fault = .nestingTooDeep ⟨94, 95⟩ ∧
      ∃ place c s u, (Cursor.ofText .postgres deepDefault).LeadsTo s ∧
        exprBody place c s = .error e u := by
  have h : parse .postgres "CREATE TABLE t (a INT, CHECK ((b[1]) > 0));" =
      .ok [.createTable ⟨false, .ofIdent (.bare "t"),
        [⟨.bare "a", ⟨"INT", [], [], 0⟩, false, none, false⟩],
        [⟨.bare "t_b_check", .check subscriptCheck⟩], []⟩] := by
    decide +kernel
  have hdeep : parse .postgres deepDefault =
      .error ⟨.nestingTooDeep ⟨94, 95⟩, .defaultExpression⟩ := by
    decide +kernel
  have hnests := nests .postgres "CREATE TABLE t (a INT, CHECK ((b[1]) > 0));"
  constructor
  · refine ⟨_, h, by decide, ?_, hnests.within _ h _ (by decide)⟩
    exact (hnests.closed _ h _ (by decide)).mp (by decide)
  · exact ⟨_, hdeep, rfl, (nests .postgres deepDefault).raised _ _ hdeep rfl⟩

def openDefault : Expr :=
  ⟨["(", "1"].map .bare⟩

-- The semicolon ends the default although its parenthesis is still open.
theorem not_wellNested_openDefault : ∃ s,
    parse .postgres "ALTER TABLE t ADD COLUMN a INT DEFAULT (1;" = .ok s ∧ openDefault ∈ exprs s ∧
      ¬Bracket.WellNested openDefault.raws := by
  have h : parse .postgres "ALTER TABLE t ADD COLUMN a INT DEFAULT (1;" =
      .ok [.alterTable (.ofIdent (.bare "t")) (.addColumn
        ⟨.bare "a", ⟨"INT", [], [], 0⟩, false, some openDefault, false⟩)] := by
    decide +kernel
  exact ⟨_, h, by decide, by decide⟩

end Script

end SchemaDiff
