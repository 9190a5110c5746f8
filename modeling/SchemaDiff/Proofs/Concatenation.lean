import SchemaDiff.Proofs.Parser.Composition

namespace SchemaDiff

namespace ParseError

variable (n : Nat) (e : ParseError)

-- An error says the same at its new place.
@[simp] theorem shift_context : (e.shift n).context = e.context := rfl

@[simp] theorem shift_span : (e.shift n).span = e.span.shift n := by
  obtain ⟨fault, context⟩ := e
  cases fault <;> rfl

@[simp] theorem shift_expected? : (e.shift n).expected? = e.expected? := by
  obtain ⟨fault, context⟩ := e
  cases fault <;> rfl

@[simp] theorem shift_found? : (e.shift n).found? = e.found? := by
  obtain ⟨fault, context⟩ := e
  cases fault <;> rfl

@[simp] theorem shift_text : (e.shift n).text = e.text := by
  obtain ⟨fault, context⟩ := e
  cases fault with
  | unexpected expected found hint => cases hint <;> rfl
  | _ => rfl

end ParseError

namespace Parser

variable {d : Dialect} {f : Frame}

theorem statementEnd_eq_ok {s u : Cursor} (h : statementEnd s = .ok () u) : u = s ∧ s.AtEnd := by
  obtain ⟨t, v, ht, h⟩ := bind_eq_ok.mp h
  cases ht
  split at h
  · rename_i hend
    cases h
    simpa [Cursor.AtEnd] using hend
  · cases h

-- Behind a statement the text ends, or a semicolon stands.
theorem ended_eq_ok {α : Type} {p : Parser α} {g : α → List Statement} {s u : Cursor}
    {o : Option (List Statement)}
    (h : (do let a ← p; statementEnd; return some (g a) : Parser (Option (List Statement))) s =
      .ok o u) : u.AtEnd ∧ ∃ a, o = some a := by
  obtain ⟨a, v, -, h⟩ := bind_eq_ok.mp h
  obtain ⟨⟨⟩, w, hend, h⟩ := bind_eq_ok.mp h
  cases h
  obtain ⟨rfl, hend⟩ := statementEnd_eq_ok hend
  exact ⟨hend, _, rfl⟩

-- What reading a statement comes to: the end of the text, a semicolon, or a statement.
theorem statements?_eq_ok {s u : Cursor} {o : Option (List Statement)}
    (h : statements? d s = .ok o u) :
    s.current.kind = .endOfInput ∧ u = s ∧ o = none ∨
      s.current.kind = .symbol .semicolon ∧ u = s.next ∧ o = some [] ∨
      (∃ k, s.current.kind = .keyword k) ∧ u.AtEnd ∧ ∃ a, o = some a := by
  obtain ⟨t, v, ht, h⟩ := bind_eq_ok.mp h
  obtain ⟨rfl, rfl⟩ : s.current = t ∧ s = v := by
    cases ht
    exact ⟨rfl, rfl⟩
  generalize hkind : s.current.kind = kind at h
  split at h
  · rename_i hkind
    cases h
    exact .inl ⟨rfl, rfl, rfl⟩
  · rename_i hkind
    cases h
    exact .inr (.inl ⟨rfl, rfl, rfl⟩)
  · rename_i hkind
    exact .inr (.inr ⟨⟨_, rfl⟩, ended_eq_ok h⟩)
  · rename_i hkind
    exact .inr (.inr ⟨⟨_, rfl⟩, ended_eq_ok h⟩)
  · rename_i hkind
    exact .inr (.inr ⟨⟨_, rfl⟩, ended_eq_ok h⟩)
  · cases h

-- Where a statement was read, the cursor has moved.
theorem length_statements?_lt {s u : Cursor} {a : List Statement}
    (hread : s.Reaches u) (h : statements? d s = .ok (some a) u) : u.ahead.length < s.ahead.length := by
  obtain ⟨read, hahead, -⟩ := hread
  obtain ⟨-, -, hnone⟩ | ⟨hkind, rfl, -⟩ | ⟨⟨k, hkind⟩, hend, -⟩ := statements?_eq_ok h
  · cases hnone
  · cases hs : s.ahead with
    | nil => simp [Cursor.current, hs, Token.atEnd] at hkind
    | cons t rest => simp [Cursor.next, hs]
  · rw [hahead, List.length_append]
    cases read with
    | cons t read => simp
    | nil =>
        -- The current token would be a keyword and the end of a statement.
        rw [List.nil_append] at hahead
        unfold Cursor.AtEnd Cursor.current at hend
        unfold Cursor.current at hkind
        rw [hahead] at hkind
        cases hu : u.ahead with
        | nil => simp [hu, Token.atEnd] at hkind
        | cons t rest => simp_all

theorem current_ne_of_some {s u : Cursor} {a : List Statement}
    (h : statements? d s = .ok (some a) u) : s.current.kind ≠ .endOfInput := by
  intro hend
  obtain ⟨-, -, hnone⟩ | ⟨hkind, -⟩ | ⟨⟨k, hkind⟩, -⟩ := statements?_eq_ok h
  · cases hnone
  · rw [hend] at hkind
    cases hkind
  · rw [hend] at hkind
    cases hkind

def prepend (first : List (List Statement)) :
    EStateM.Result ParseError Cursor (List (List Statement)) →
    EStateM.Result ParseError Cursor (List (List Statement))
  | .ok rest u => .ok (first ++ rest) u
  | .error e u => .error e u

-- The statements of a text are read, and then what stands behind the text.
theorem many_statements?_within {s s' u : Cursor} {all : List (List Statement)}
    (hs : s.Within f s') (h : many (statements? d) s = .ok all u) :
    s.Reaches u ∧ u.ahead = [] ∧
      many (statements? d) s' = prepend all (many (statements? d) ⟨f.behind, f.stop⟩) := by
  induction s using many.induct (statements? d) generalizing s' all with
  | case1 s e v hstep =>
      rw [many, hstep] at h
      cases h
  | case2 s v hstep =>
      rw [many, hstep] at h
      cases h
      obtain ⟨hend, rfl, -⟩ | ⟨-, -, hnone⟩ | ⟨-, -, a, ha⟩ := statements?_eq_ok hstep
      · have hempty : u.ahead = [] := by
          cases hu : u.ahead with
          | nil => rfl
          | cons t rest =>
              have hne := hs.inner t (by simp [hu])
              simp only [Cursor.current, hu] at hend
              exact absurd hend hne
        have hs' : s' = ⟨f.behind, f.stop⟩ := by
          have hahead := hs.ahead
          rw [hempty, List.map_nil, List.nil_append] at hahead
          rw [← hahead, ← hs.stop]
        refine ⟨.refl u, hempty, ?_⟩
        rw [hs']
        cases many (statements? d) ⟨f.behind, f.stop⟩ <;> rfl
      · cases hnone
      · cases ha
  | case3 s a v hstep hlt rest w hrest ih =>
      rw [many, hstep] at h
      simp only [if_pos hlt, hrest] at h
      cases h
      have hcurrent := hs.matches_current.eq_shift (current_ne_of_some hstep)
      obtain ⟨_, v', hstep', rfl, hv, hread⟩ := (Composes.statements? hs hcurrent).ok _ v hstep
      obtain ⟨hread', hempty, hmany⟩ := ih hv hrest
      have hlt' : v'.ahead.length < s'.ahead.length := by
        rw [hv.length_eq, hs.length_eq]
        omega
      refine ⟨hread.trans hread', hempty, ?_⟩
      rw [many, hstep']
      simp only [if_pos hlt', hmany]
      cases many (statements? d) ⟨f.behind, f.stop⟩ <;> rfl
  | case4 s a v hstep hlt e w hrest ih =>
      rw [many, hstep] at h
      simp only [if_pos hlt, hrest] at h
      cases h
  | case5 s a v hstep hlt =>
      have hcurrent := hs.matches_current.eq_shift (current_ne_of_some hstep)
      obtain ⟨-, -, -, -, -, hread⟩ := (Composes.statements? hs hcurrent).ok _ v hstep
      exact absurd (length_statements?_lt hread hstep) hlt

-- A semicolon is an empty statement.
theorem many_statements?_semicolon {t : Token} (ht : t.kind = .symbol .semicolon)
    (rest : List Token) (stop : Nat) :
    many (statements? d) ⟨t :: rest, stop⟩ = prepend [[]] (many (statements? d) ⟨rest, stop⟩) := by
  have hstep : statements? d ⟨t :: rest, stop⟩ = .ok (some []) ⟨rest, stop⟩ := by
    refine bind_eq_ok.mpr ⟨t, _, rfl, ?_⟩
    rw [ht]
    rfl
  rw [many, hstep]
  simp only [List.length_cons, Nat.lt_succ_self, if_true]
  cases many (statements? d) ⟨rest, stop⟩ <;> rfl

-- A whole text is read alike behind another text.
theorem many_statements?_outcome {s s' : Cursor} (hs : s.Within f s') (hb : f.behind = []) :
    Outcome f Eq s (many (statements? d) s) (many (statements? d) s') := by
  have hstatements : Composes f (statements? d) :=
    fun s s' hs => Composes.statements? hs (hs.current_eq hb)
  exact Likeness.Respects.many hstatements s s' hs

end Parser

namespace Cursor

variable {d : Dialect}

theorem inner_ofText (d : Dialect) (text : String) :
    ∀ t ∈ (ofText d text).ahead, t.kind ≠ .endOfInput := by
  intro t ht
  simp only [ofText, Token.significant, List.mem_filter, Bool.and_eq_true, bne_iff_ne] at ht
  exact ht.2.2

-- What is ahead of a cursor, with nothing around it.
theorem within_self {s : Cursor} (h : ∀ t ∈ s.ahead, t.kind ≠ .endOfInput) :
    s.Within ⟨0, [], s.stop⟩ ⟨s.ahead.map (Token.shift 0), s.stop⟩ where
  ahead := (List.append_nil _).symm
  stop := rfl
  ends _ := rfl
  resumes := by simp
  inner := h

-- A text that stands alone.
theorem within_alone (d : Dialect) (text : String) :
    (ofText d text).Within ⟨0, [], text.utf8ByteSize⟩
      ⟨(ofText d text).ahead.map (Token.shift 0), text.utf8ByteSize⟩ :=
  within_self (inner_ofText d text)

end Cursor

namespace Script

variable {d : Dialect}

-- An accepted text is read to its end.
theorem legal_of_parse {x : String} {d₁ : Script} (h : parse d x = .ok d₁) :
    ∀ t ∈ (Cursor.ofText d x).ahead, t.kind ≠ .illegal := by
  rw [parse_eq] at h
  cases hall : Parser.many (Parser.statements? d) (.ofText d x) with
  | error e u => simp [hall] at h
  | ok all u =>
      obtain ⟨⟨read, hread, hlegal⟩, hempty, -⟩ :=
        Parser.many_statements?_within (Cursor.within_alone d x) hall
      rw [hempty, List.append_nil] at hread
      rwa [hread]

-- Statements can be read one text at a time. If the second text fails, the whole fails at the same
-- token for the same reason.
theorem parse_append {x y : String} {d₁ : Script} (h : parse d x = .ok d₁) :
    (∀ d₂, parse d y = .ok d₂ → parse d (x ++ "\n;" ++ y) = .ok (d₁ ++ d₂)) ∧
      ∀ e, parse d y = .error e → ∃ e', parse d (x ++ "\n;" ++ y) = .error e' ∧ e'.text = e.text ∧
        e'.context = e.context ∧ e'.expected? = e.expected? ∧ e'.found? = e.found? ∧
        e'.span = ⟨e.span.start + (x.utf8ByteSize + 2), e.span.stop + (x.utf8ByteSize + 2)⟩ := by
  have htext := Cursor.ofText_append (y := y) (legal_of_parse h)
  simp only [parse_eq] at h ⊢
  rw [htext]
  cases hx : Parser.many (Parser.statements? d) (.ofText d x) with
  | error e u => simp [hx] at h
  | ok all u =>
      obtain rfl : all.flatten = d₁ := by simpa [hx] using h
      -- The first text, with a semicolon and the second text behind it.
      have hfirst : (Cursor.ofText d x).Within ⟨0,
          ⟨.symbol .semicolon, ";", ⟨x.utf8ByteSize + 1, x.utf8ByteSize + 2⟩⟩ ::
            (Cursor.ofText d y).ahead.map (Token.shift (x.utf8ByteSize + 2)),
          y.utf8ByteSize + (x.utf8ByteSize + 2)⟩
          ⟨(Cursor.ofText d x).ahead ++
            ⟨.symbol .semicolon, ";", ⟨x.utf8ByteSize + 1, x.utf8ByteSize + 2⟩⟩ ::
              (Cursor.ofText d y).ahead.map (Token.shift (x.utf8ByteSize + 2)),
            y.utf8ByteSize + (x.utf8ByteSize + 2)⟩ :=
        ⟨by rw [Token.map_shift_zero], rfl, by simp, by simp, Cursor.inner_ofText d x⟩
      -- The second text, with the first one in front of it.
      have hsecond : (Cursor.ofText d y).Within ⟨x.utf8ByteSize + 2, [],
          y.utf8ByteSize + (x.utf8ByteSize + 2)⟩
          ⟨(Cursor.ofText d y).ahead.map (Token.shift (x.utf8ByteSize + 2)),
            y.utf8ByteSize + (x.utf8ByteSize + 2)⟩ :=
        ⟨(List.append_nil _).symm, rfl, fun _ => rfl, by simp, Cursor.inner_ofText d y⟩
      obtain ⟨-, -, hmany⟩ := Parser.many_statements?_within hfirst hx
      rw [hmany, Parser.many_statements?_semicolon rfl]
      have houtcome := Parser.many_statements?_outcome (d := d) hsecond rfl
      constructor
      · intro d₂ hy
        cases hsecond : Parser.many (Parser.statements? d) (.ofText d y) with
        | error e v => simp [hsecond] at hy
        | ok all' v =>
            obtain rfl : all'.flatten = d₂ := by simpa [hsecond] using hy
            obtain ⟨_, v', hsecond', rfl, -⟩ := houtcome.ok all' v hsecond
            rw [hsecond']
            simp [Parser.prepend]
      · intro e hy
        cases hsecond : Parser.many (Parser.statements? d) (.ofText d y) with
        | ok all' v => simp [hsecond] at hy
        | error e' v =>
            obtain rfl : e' = e := by simpa [hsecond] using hy
            obtain ⟨-, -, herror⟩ := houtcome.error e' v hsecond
            obtain ⟨v', hsecond', -⟩ := herror rfl
            rw [hsecond']
            refine ⟨e'.shift (x.utf8ByteSize + 2), rfl, ?_⟩
            simp [Span.shift]

-- The line comment at the end of the first text swallows neither the semicolon nor the second text.
theorem parse_append_comment :
    parse .postgres ("DROP TABLE t -- old" ++ "\n;" ++ "DROP INDEX i") =
        .ok [.dropTable false (.ofIdent (.bare "t")), .dropIndex false (.ofIdent (.bare "i")) none] ∧
      ∃ e, parse .postgres ("DROP TABLE t -- old" ++ "\n;" ++ "DROP VIEW v") = .error e ∧
        e.expected? = some .tableOrIndex ∧ e.span = ⟨26, 30⟩ := by
  have h : parse .postgres "DROP TABLE t -- old" = .ok [.dropTable false (.ofIdent (.bare "t"))] := by
    decide +kernel
  have herror : parse .postgres "DROP VIEW v" =
      .error ⟨.unexpected .tableOrIndex ⟨.identifier, "VIEW", ⟨5, 9⟩⟩ none, .dropStatement⟩ := by
    decide +kernel
  refine ⟨(parse_append h).1 _ (by decide +kernel), ?_⟩
  obtain ⟨e, he, -, -, hexpected, -, hspan⟩ := (parse_append h).2 _ herror
  exact ⟨e, he, hexpected, hspan⟩

end Script

end SchemaDiff
