import SchemaDiff.Proofs.Ident
import SchemaDiff.Proofs.Token.Lines
import SchemaDiff.Proofs.Token.Quoted

namespace SchemaDiff

variable {d : Dialect}

theorem Face.Genuine.single {f : Face} (h : f.Genuine d) : Token.Single d f.kind f.literal := by
  obtain ⟨hkind, c, tail, hliteral, hblank, hspells⟩ := h
  have hlexeme := hspells [] (Face.ends_nil hkind)
  rw [List.append_nil] at hlexeme
  exact Token.single_of_lexeme hliteral hblank hkind.2.1 hlexeme

-- A scanned name that stands between quotes is spelled as its quoting spells it.
theorem Ident.quoted_name_ofLiteral {text : String} {t : Token} {q : Char}
    (ht : t ∈ Token.scan d text) (hk : t.kind = .quotedIdentifier q) :
    q = d.identifierQuote ∧ quoted q (ofLiteral q t.literal).name = ofLiteral q t.literal := by
  have hsignificant : t ∈ Token.significant (Token.scan d text) :=
    List.mem_filter.mpr ⟨ht, by simp [hk]⟩
  have hgenuine : t.face.Genuine d :=
    Scanner.genuine_tokens (Scanner.ofText text) hsignificant (by simp [hk])
  refine ⟨(hgenuine.exists_quote hk).1, ?_⟩
  rw [quoted, ofLiteral]
  exact congrArg (Ident.mk _ _) (hgenuine.quote_unquote hk)

theorem Parser.ident_of_identOf? {s : Cursor} {i : Ident} (h : identOf? s.current = some i)
    (c : Context) : ident c s = .ok i s.next := by
  unfold ident
  rw [current_bind_eq_ok, h]
  rfl

namespace Ident.Readable

variable {i : Ident}

theorem single (h : i.Readable d) : Token.Single d (i.face d).kind i.raw := by
  have hsingle := h.genuine.single
  rwa [face_literal] at hsingle

-- The grammar reads the name from its text, and reads the whole text.
theorem ident_ofText (h : i.Readable d) (c : Context) :
    Parser.ident c (Cursor.ofText d i.raw) = .ok i ⟨[], i.raw.utf8ByteSize⟩ := by
  have hcursor : Cursor.ofText d i.raw =
      ⟨[⟨(i.face d).kind, i.raw, ⟨0, i.raw.utf8ByteSize⟩⟩], i.raw.utf8ByteSize⟩ := by
    obtain ⟨hcomment, hend, -⟩ := h.genuine.significant
    rw [Cursor.ofText, h.single, Token.significant, List.filter_cons_of_pos (by simp [hcomment, hend])]
    rfl
  have hread : Parser.identOf? (Cursor.ofText d i.raw).current = some i := by
    rw [hcursor, ← identOf?_face, ← h.read]
    simp [Cursor.current, Token.face, Face.token]
  rw [Parser.ident_of_identOf? hread c, hcursor]
  rfl

end Ident.Readable

-- A quoted name is one token, from which the name is read again. A token in quotes is what the
-- quoting of its name gives. A generated name, quoted or not, is read again as it was generated.
theorem Ident.quoting (d : Dialect) :
    (∀ name, Token.Single d (.quotedIdentifier d.identifierQuote)
        (quoted d.identifierQuote name).raw ∧
      ofLiteral d.identifierQuote (quoted d.identifierQuote name).raw =
        quoted d.identifierQuote name) ∧
    (∀ text, ∀ t ∈ Token.scan d text, ∀ q, t.kind = .quotedIdentifier q →
      q = d.identifierQuote ∧ quoted q (ofLiteral q t.literal).name = ofLiteral q t.literal) ∧
    ∀ name, (∃ kind, Token.Single d kind (derived d name).raw) ∧
      ∀ context, Parser.ident context (Cursor.ofText d (derived d name).raw) =
        .ok (derived d name) ⟨[], (derived d name).raw.utf8ByteSize⟩ := by
  refine ⟨fun name => ⟨(Token.genuine_quote d name).single, ?_⟩,
    fun text t ht q hk => quoted_name_ofLiteral ht hk, fun name => ?_⟩
  · rw [ofLiteral, quoted, Text.unquote_quote]
  · have hreadable := readable_derived d name
    exact ⟨⟨_, hreadable.single⟩, hreadable.ident_ofText⟩

-- The last quote of this name stands between two of its token.
theorem Ident.quoting_lastQuote : ∃ t ∈ Token.scan .postgres "\"a\"\"\"",
    t.kind = .quotedIdentifier '"' ∧ (ofLiteral '"' t.literal).name = "a\"" ∧
      quoted '"' (ofLiteral '"' t.literal).name = ofLiteral '"' t.literal := by
  have hscan : Token.mk (.quotedIdentifier '"') "\"a\"\"\"" ⟨0, 5⟩ ∈
      Token.scan .postgres "\"a\"\"\"" := by decide +kernel
  exact ⟨_, hscan, rfl, by decide +kernel, ((quoting .postgres).2.1 _ _ hscan _ rfl).2⟩

end SchemaDiff
