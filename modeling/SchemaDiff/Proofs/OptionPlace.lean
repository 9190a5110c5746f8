import SchemaDiff.Proofs.ColumnPlace
import SchemaDiff.Proofs.Token.Spacing

namespace SchemaDiff

open SchemaDiff.Parser

variable {d : Dialect}

-- Behind the parenthesis that closes its body, a table is read again with other options.
theorem Parser.createTable_options {s u : Cursor} {t : CreateTable} (h : createTable d s = .ok t u) :
    ∃ front paren options, s.faces = front ++ paren :: (options ++ u.faces) ∧
      paren.kind = .symbol .rightParen ∧
      Steps (tableOptions d) (options ++ u.faces) t.options u.faces ∧
      ∀ X written Z, Steps (tableOptions d) X written Z →
        Steps (createTable d) (front ++ paren :: X) { t with options := written } Z := by
  obtain ⟨front, v, elements, w, paren, x, hfront, helements, hclose, hparen, hoptions, htable,
    hagain⟩ := createTable_parts h
  obtain ⟨body, hbody, -, hsteps⟩ := Rereads.tableElements t.name v elements w helements
  obtain ⟨options, hsplit, -, hread⟩ := Rereads.tableOptions x t.options u hoptions
  -- The closing parenthesis is not `NOT`, so what stands behind it is not looked at.
  have hpair : ∀ X, Exchange.pair w.faces (paren :: X) := fun X => by
    rw [hclose]
    refine ⟨rfl, fun hnot => ?_⟩
    rw [Face.first_cons, hparen] at hnot
    cases hnot
  refine ⟨front ++ body, paren, options, by rw [hfront, hbody, hclose, hsplit, List.append_assoc],
    hparen, hread _ (Exchange.pair_refl _), fun X written Z hX => ?_⟩
  rw [List.append_assoc]
  have htext : Exchange.pair v.faces (body ++ paren :: X) := hbody ▸ Exchange.append (hpair X) body
  have htable : { t.ofElements elements with options := written } = { t with options := written } :=
    congrArg (fun table : CreateTable => { table with options := written }) htable.symm
  rw [← htable]
  exact hagain _ _ _ _ _ htext (hsteps _ (hpair X)) hX

-- Where the options of a table are written in a text: behind the parenthesis that closes its body,
-- and in front of the end of its statement.
structure OptionPlace where
  front : List Face
  paren : Face
  options : List Face
  behind : List Face

namespace OptionPlace

-- The text with other tokens at the place.
def faces (p : OptionPlace) (middle : List Face) : List Face :=
  p.front ++ p.paren :: (middle ++ p.behind)

-- The options of the table were read from this place of the text.
structure Holds (p : OptionPlace) (d : Dialect) (x : String) (t : CreateTable) : Prop where
  faces : (Cursor.ofText d x).faces = p.faces p.options
  closes : p.paren.kind = .symbol .rightParen
  reads : Steps (tableOptions d) (p.options ++ p.behind) t.options p.behind
  ends : EndsStatement p.behind

theorem exists_optionPlace {x : String} {s₁ s₂ : Script} {t : CreateTable}
    (h : Script.parse d x = .ok (s₁ ++ .createTable t :: s₂)) :
    ∃ p : OptionPlace, p.Holds d x t ∧ ∀ X written y,
      Steps (tableOptions d) (X ++ p.behind) written p.behind →
      (Cursor.ofText d y).faces = p.faces X →
      Script.parse d y = .ok (s₁ ++ .createTable { t with options := written } :: s₂) := by
  obtain ⟨front, v, w, hfront, hcreated, hend, hagain⟩ := parse_split h
  obtain ⟨front', paren, options, hfront', hparen, hread, hagain'⟩ := createTable_options hcreated
  have hends : EndsStatement w.faces := by
    have hkind : w.current.kind = (Face.first w.faces).kind := congrArg Face.kind w.face_current
    unfold EndsStatement
    rwa [← hkind]
  refine ⟨⟨front ++ front', paren, options, w.faces⟩, ⟨?_, hparen, hread, hends⟩,
    fun X written y hX hy => ?_⟩
  · rw [hfront, hfront', faces, List.append_assoc]
  · rw [faces, List.append_assoc] at hy
    exact hagain _ _ y (hagain' _ _ _ hX) hy

-- A text that ends with its only closing parenthesis says nothing behind it.
theorem Holds.eq_nil {p : OptionPlace} {x : String} {t : CreateTable} (h : p.Holds d x t)
    (hinside : ∀ f ∈ (Cursor.ofText d x).faces.dropLast, f.kind ≠ .symbol .rightParen) :
    p.options ++ p.behind = [] := by
  rcases List.eq_nil_or_concat (p.options ++ p.behind) with hnil | ⟨rest, last, hrest⟩
  · exact hnil
  · refine absurd h.closes (hinside p.paren ?_)
    have htokens : p.faces p.options = (p.front ++ p.paren :: rest) ++ [last] := by
      rw [OptionPlace.faces, hrest, List.concat_eq_append, List.append_assoc, List.cons_append]
    rw [h.faces, htokens, List.dropLast_concat]
    simp

-- Known options are read one by one, with their names in upper case, and nothing is left of them,
-- whatever white space and comments stand between their words. So it is behind every table of a text.
theorem options_recognised {written : List OptionText} (h : ∀ o ∈ written, o.Known d) :
    (∀ behind Y cs, LexesTo d behind Y → EndsStatement Y →
      Spaced d behind (written.flatMap OptionText.faces) cs →
      ∃ X, LexesTo d cs X ∧ Steps (tableOptions d) X (written.map OptionText.option) Y) ∧
    ∀ x s₁ t s₂, Script.parse d x = .ok (s₁ ++ .createTable t :: s₂) →
      ∃ p : OptionPlace, p.Holds d x t ∧
        ∀ y, (Cursor.ofText d y).faces = p.faces (written.flatMap OptionText.faces) →
          Script.parse d y =
            .ok (s₁ ++ .createTable { t with options := written.map OptionText.option } :: s₂) := by
  refine ⟨fun behind Y cs hbehind hY hcs => ?_, fun x s₁ t s₂ hx => ?_⟩
  · exact ⟨_, hcs.lexesTo hbehind, OptionText.steps_tableOptions h hY⟩
  · obtain ⟨p, hp, hagain⟩ := exists_optionPlace hx
    exact ⟨p, hp, fun y hy => hagain _ _ y (OptionText.steps_tableOptions h hp.ends) hy⟩

-- Values that look like words of options, a name over two lines, and commas in some places only.
theorem options_recognised_items :
    let x := "CREATE TABLE t (a INT)"
    let y := "CREATE TABLE t (a INT) default -- c\n Character/* */Set = set, ENGINE `My x`\n" ++
      "comment 'it''s' , Row_Format=engine"
    let t : CreateTable := ⟨false, .ofIdent (.bare "t"),
      [⟨.bare "a", ⟨"INT", [], [], 0⟩, false, none, false⟩], [], []⟩
    Script.parse .mysql x = .ok [.createTable t] ∧
      Script.parse .mysql y = .ok [.createTable { t with options :=
        [⟨"DEFAULT CHARACTER SET", .bare "set", true⟩, ⟨"ENGINE", .ofLiteral '\x60' "`My x`", false⟩,
          ⟨"COMMENT", .bare "'it''s'", false⟩, ⟨"ROW_FORMAT", .bare "engine", true⟩] }] := by
  intro x y t
  let written : List OptionText :=
    [⟨[.read .mysql "default", .read .mysql "Character", .read .mysql "Set"], true,
        .read .mysql "set", true⟩,
      ⟨[.read .mysql "ENGINE"], false, .read .mysql "`My x`", false⟩,
      ⟨[.read .mysql "comment"], false, .read .mysql "'it''s'", true⟩,
      ⟨[.read .mysql "Row_Format"], true, .read .mysql "engine", false⟩]
  have hknown : ∀ o ∈ written, o.Known .mysql := by decide +kernel
  have hx : Script.parse .mysql x = .ok ([] ++ .createTable t :: []) := by decide +kernel
  obtain ⟨p, hp, hparse⟩ := (options_recognised hknown).2 x [] t [] hx
  have hnil := hp.eq_nil (by decide +kernel)
  obtain ⟨hoptions, hbehind⟩ := List.append_eq_nil_iff.mp hnil
  have hfront : (Cursor.ofText .mysql x).faces = p.front ++ [p.paren] := by
    rw [hp.faces, OptionPlace.faces, hnil]
  have hy : (Cursor.ofText .mysql y).faces = p.faces (written.flatMap OptionText.faces) := by
    have htokens : (Cursor.ofText .mysql y).faces =
        (Cursor.ofText .mysql x).faces ++ written.flatMap OptionText.faces := by decide +kernel
    rw [htokens, hfront, OptionPlace.faces, hbehind, List.append_nil, List.append_assoc]
    rfl
  exact ⟨hx, hparse y hy⟩

end OptionPlace

end SchemaDiff
