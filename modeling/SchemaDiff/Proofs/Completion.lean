import SchemaDiff.Proofs.Completion.Statement
import SchemaDiff.Proofs.Concatenation

namespace SchemaDiff

variable {d : Dialect}

-- Any tokens are read from their texts on one line.
theorem exists_prints {faces : List Face} (h : ∀ f ∈ faces, f.Genuine d) :
    ∃ text, Prints d text faces := by
  induction faces with
  | nil => exact ⟨"", .empty⟩
  | cons f faces ih =>
      obtain ⟨text, htext⟩ := ih fun f hf => h f (List.mem_cons_of_mem _ hf)
      exact ⟨f.literal ++ (" " ++ text),
        (Prints.face (h f List.mem_cons_self)).append htext.space (separates_space text)⟩

namespace Cursor

-- A text can be cut in front of the token that was reached, and continued on a new line.
theorem exists_cut {x : String} {read : List Token} {u : Cursor}
    (hread : (ofText d x).ahead = read ++ u.ahead) (hlegal : ∀ t ∈ read, t.kind ≠ .illegal)
    (hstop : u.stop = x.utf8ByteSize) :
    ∃ pre post, x = pre ++ post ∧ pre.utf8ByteSize = u.current.span.start ∧
      ∀ z Z, LexesTo d z.toList Z → (ofText d (pre ++ "\n" ++ z)).faces = read.map Token.face ++ Z := by
  obtain ⟨before, t, after, htokens, hbefore, hstart⟩ :
      ∃ before t after, Scanner.tokens d ⟨0, x.toList⟩ = before ++ t :: after ∧
        Token.significant before = read ∧
        (t.kind = .endOfInput ∧ u.ahead = [] ∨ t = u.current) := by
    obtain ⟨all, last, htokens, hlast, -⟩ := Scanner.exists_tokens (d := d) ⟨0, x.toList⟩
    have hahead : Token.significant (all ++ [last]) = read ++ u.ahead := by
      rw [← htokens, ← hread]
      rfl
    cases hu : u.ahead with
    | nil =>
        refine ⟨all, last, [], htokens, ?_, .inl ⟨hlast, rfl⟩⟩
        rw [hu, List.append_nil, Token.significant_append] at hahead
        simpa [Token.significant, hlast] using hahead
    | cons t rest =>
        rw [hu, Token.significant, List.filter_eq_append_iff] at hahead
        obtain ⟨first, second, hsplit, hfirst, hsecond⟩ := hahead
        obtain ⟨between, after, rfl, hbetween, -, -⟩ := List.filter_eq_cons_iff.mp hsecond
        refine ⟨first ++ between, t, after, ?_, ?_, .inr (by simp [current, hu])⟩
        · rw [htokens, hsplit, List.append_assoc]
        · rw [Token.significant_append, Token.significant, hfirst, Token.significant,
            List.filter_eq_nil_iff.mpr hbetween, List.append_nil]
  have hlegalBefore : ∀ b ∈ before, b.kind ≠ .illegal := by
    intro b hb hillegal
    refine hlegal b ?_ hillegal
    rw [← hbefore]
    exact List.mem_filter.mpr ⟨hb, by simp [hillegal]⟩
  obtain ⟨pre, post, hsplit, hpre, hpost, hcut⟩ := Scanner.tokens_cut htokens hlegalBefore
  refine ⟨String.ofList pre, String.ofList post, ?_, ?_, fun z Z hz => ?_⟩
  · rw [← String.ofList_append, ← hsplit, String.ofList_toList]
  · rw [Text.utf8ByteSize_ofList]
    obtain ⟨hend, hempty⟩ | rfl := hstart
    · rw [hpost hend, List.append_nil] at hsplit
      rw [← hsplit, Text.utf8Length_toList, ← hstop]
      simp [current, hempty, Token.atEnd]
    · rw [hpre, Nat.zero_add]
  · have htext : (String.ofList pre ++ "\n" ++ z).toList = pre ++ '\n' :: z.toList := by simp
    rw [faces, ofText, Token.scan, Scanner.ofText, htext, hcut, Token.significant_append, hbefore,
      List.map_append, hz]

end Cursor

namespace Script

-- A text is wrong at the first token that nothing could make right: up to it, the text can be
-- continued to one that is accepted.
theorem parse_prefix {x : String} {e : ParseError}
    (hmodify : ∀ t ∈ Token.scan d x, t.kind ≠ .keyword .modify) (h : parse d x = .error e)
    (he : e.expected?.isSome) :
    ∃ pre post z script, x = pre ++ post ∧ pre.utf8ByteSize = e.span.start ∧
      parse d (pre ++ "\n" ++ z) = .ok script := by
  rw [parse_eq] at h
  cases hall : Parser.many (Parser.statements? d) (.ofText d x) with
  | ok all u => simp [hall] at h
  | error e' u =>
      obtain rfl : e' = e := by simpa [hall] using h
      obtain ⟨⟨read, hread, hlegal⟩, hspan, hsame⟩ :=
        (Parser.many_statements?_outcome (Cursor.within_alone d x) rfl).error e' u hall
      obtain ⟨u', -, hu⟩ := hsame rfl
      obtain ⟨pre, post, hsplit, hstart, hfaces⟩ := Cursor.exists_cut hread hlegal (hu.ends rfl).symm
      have hunmodified : Parser.Unmodified (.ofText d x) := by
        intro f hf
        obtain ⟨t, ht, rfl⟩ := List.mem_map.mp hf
        exact hmodify t (List.mem_filter.mp ht).1
      obtain ⟨r, hr, hcomplete⟩ :=
        (Parser.Viable.statements.everywhere _ hunmodified).error e' u hall he
      obtain rfl : read.map Token.face = r := by
        rw [Cursor.faces, hread, List.map_append] at hr
        exact List.append_cancel_right hr
      obtain ⟨Z, hZ, all, hall⟩ : ∃ Z : List Face, (∀ f ∈ Z, f.Genuine d) ∧ ∃ all,
          Parser.Steps (Parser.many (Parser.statements? d)) (read.map Token.face ++ (Z ++ []))
            all [] := by
        by_cases hnil : read.map Token.face = []
        · rw [hnil]
          exact ⟨[], by simp, Parser.Viable.statements.accepts [] (by decide)⟩
        · obtain ⟨Z, hZ, hsteps⟩ := hcomplete hnil
          exact ⟨Z, hZ, hsteps [] (by decide)⟩
      obtain ⟨z, hz⟩ := exists_prints hZ
      rw [List.append_nil] at hall
      obtain ⟨v, hv, -⟩ := hall _ (hfaces z Z hz.lexesTo)
      exact ⟨pre, post, z, all.flatten, hsplit, by rw [hstart, hspan he], by rw [parse_eq, hv]⟩

-- After `TIMESTAMP WITH` the word `ZONE` comes too early, but `TIME ZONE` would be right.
theorem parse_prefix_timeZone :
    (∀ t ∈ Token.scan .postgres "ALTER TABLE t ADD c TIMESTAMP WITH ZONE",
        t.kind ≠ .keyword .modify) ∧
      ∃ e, parse .postgres "ALTER TABLE t ADD c TIMESTAMP WITH ZONE" = .error e ∧
        e.expected?.isSome ∧ e.span = ⟨35, 39⟩ ∧ ∃ pre post z script,
          "ALTER TABLE t ADD c TIMESTAMP WITH ZONE" = pre ++ post ∧
            pre.utf8ByteSize = e.span.start ∧ parse .postgres (pre ++ "\n" ++ z) = .ok script := by
  have hmodify : ∀ t ∈ Token.scan .postgres "ALTER TABLE t ADD c TIMESTAMP WITH ZONE",
      t.kind ≠ .keyword .modify := by
    decide +kernel
  have h : parse .postgres "ALTER TABLE t ADD c TIMESTAMP WITH ZONE" =
      .error ⟨.unexpected (.word "TIME") ⟨.identifier, "ZONE", ⟨35, 39⟩⟩ none, .dataType⟩ := by
    decide +kernel
  exact ⟨hmodify, _, h, rfl, rfl, parse_prefix hmodify h rfl⟩

end Script

end SchemaDiff
