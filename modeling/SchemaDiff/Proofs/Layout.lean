import SchemaDiff.Proofs.Parser.Resemblance
import SchemaDiff.Proofs.Parser.Yields

namespace SchemaDiff

variable {d : Dialect} {x y : String}

-- The same tokens one by one. The space and the comments between them may differ.
def SameTokens (d : Dialect) (x y : String) : Prop :=
  List.Forall₂ Token.SameUnlessReserved (Token.significant (Token.scan d x))
    (Token.significant (Token.scan d y))

-- The value is a reserved keyword without quotes.
def TableOption.HasReservedValue (d : Dialect) (o : TableOption) : Prop :=
  ∃ k, d.keyword? o.value.raw = some k ∧ k.isReserved = true

instance (t : Token) : Decidable t.IsReserved :=
  decidable_of_iff (t.keyword?.any Keyword.isReserved = true) (by
    obtain ⟨kind, literal, span⟩ := t
    cases kind <;> simp [Token.IsReserved, Token.keyword?])

instance (t t' : Token) : Decidable (t.SameUnlessReserved t') :=
  inferInstanceAs (Decidable (_ ∧ _))

instance (d : Dialect) (x y : String) : Decidable (SameTokens d x y) :=
  inferInstanceAs (Decidable (List.Forall₂ _ _ _))

theorem Token.keyword?_literal {t : Token} {k : Keyword} (ht : t.Scanned d)
    (hk : t.kind = .keyword k) : d.keyword? t.literal = some k :=
  Parser.keyword?_literal (ht (by simp [hk]) (by simp [hk])) hk

-- The scanner takes nothing but its own word for a keyword.
theorem Token.SameUnlessReserved.resembles {t t' : Token} (h : t.SameUnlessReserved t')
    (ht : t.Scanned d) (ht' : t'.Scanned d) : t.Resembles d t' where
  kind := h.1
  literal := h.2
  keyword _ hk := ⟨Token.keyword?_literal ht hk, Token.keyword?_literal ht' (h.1.trans hk)⟩

theorem SameTokens.resembles (h : SameTokens d x y) :
    (Cursor.ofText d x).Resembles d (Cursor.ofText d y) := by
  have hx : ∀ t ∈ Token.significant (Token.scan d x), t.Scanned d := Cursor.Scanned.ofText d x
  have hy : ∀ t ∈ Token.significant (Token.scan d y), t.Scanned d := Cursor.Scanned.ofText d y
  unfold SameTokens at h
  show List.Forall₂ (Token.Resembles d) (Token.significant (Token.scan d x))
    (Token.significant (Token.scan d y))
  generalize Token.significant (Token.scan d x) = ts at h hx ⊢
  generalize Token.significant (Token.scan d y) = ts' at h hy ⊢
  induction h with
  | nil => exact .nil
  | cons ht _ ih =>
      rw [List.forall_mem_cons] at hx hy
      exact .cons (ht.resembles hx.1 hy.1) (ih hx.2 hy.2)

namespace Script

theorem eq_of_like {s s' : Script}
    (h : List.Forall₂ (Statement.Like (Ident.SameUnlessReserved d)) s s')
    (hoptions : ∀ statement ∈ s, ∀ o ∈ statement.options, ¬o.HasReservedValue d) : s = s' := by
  induction h with
  | nil => rfl
  | cons hstatement _ ih =>
      rw [List.forall_mem_cons] at hoptions
      have heq := hstatement.eq_of fun o ho _ hvalue => hvalue fun k hk => by
        by_contra hreserved
        exact hoptions.1 o ho ⟨k, hk, by simpa using hreserved⟩
      rw [heq, ih hoptions.2]

theorem many_statements?_resembling (d : Dialect) : (Parser.resembling d).Alike
    (List.Forall₂ (List.Forall₂ (Statement.Like (Ident.SameUnlessReserved d))))
    (Parser.many (Parser.statements? d)) (Parser.many (Parser.statements? d)) :=
  Parser.many_resembling fun _ _ hs =>
    Parser.Likeness.Respects.statements? (L := Parser.resembling d) hs
      (Cursor.Resembles.current hs).kind

-- Neither the layout of a text nor the letter case of its reserved keywords makes a difference. Only
-- the value of a table option is kept as it is written.
theorem parse_same_tokens (h : SameTokens d x y)
    (hoptions : ∀ s, parse d x = .ok s → ∀ statement ∈ s, ∀ o ∈ statement.options,
      ¬o.HasReservedValue d) :
    (∃ s, parse d x = .ok s ∧ parse d y = .ok s) ∨
      ∃ e e', parse d x = .error e ∧ parse d y = .error e' ∧ e'.context = e.context ∧
        e'.expected? = e.expected? := by
  have hmany := many_statements?_resembling d _ _ h.resembles
  simp only [parse_eq] at hoptions ⊢
  generalize Parser.many (Parser.statements? d) (.ofText d x) = result at hmany hoptions ⊢
  generalize Parser.many (Parser.statements? d) (.ofText d y) = result' at hmany ⊢
  cases hmany with
  | error hcontext hexpected => exact .inr ⟨_, _, rfl, rfl, hcontext, hexpected⟩
  | ok hlike _ =>
      have heq := eq_of_like (List.rel_flatten hlike) (hoptions _ rfl)
      exact .inl ⟨_, rfl, by rw [heq]⟩

-- A comment stands where a blank was, and the letter case differs. The texts of the second pair end
-- behind a comma.
theorem parse_same_tokens_create :
    (SameTokens .mysql "CREATE TABLE t (a INT) ENGINE=m"
        "create/* t */table t\n( a INT)ENGINE = m -- x" ∧
      ∃ s, parse .mysql "CREATE TABLE t (a INT) ENGINE=m" = .ok s ∧
        parse .mysql "create/* t */table t\n( a INT)ENGINE = m -- x" = .ok s) ∧
    SameTokens .mysql "CREATE TABLE t (a INT," "create table t (a INT /* */, -- x" ∧
      ∃ e e', parse .mysql "CREATE TABLE t (a INT," = .error e ∧
        parse .mysql "create table t (a INT /* */, -- x" = .error e' ∧ e'.context = e.context ∧
        e'.expected? = e.expected? := by
  have htable : SameTokens .mysql "CREATE TABLE t (a INT) ENGINE=m"
      "create/* t */table t\n( a INT)ENGINE = m -- x" := by decide +kernel
  have hcomma : SameTokens .mysql "CREATE TABLE t (a INT," "create table t (a INT /* */, -- x" := by
    decide +kernel
  have hparse : parse .mysql "CREATE TABLE t (a INT) ENGINE=m" =
      .ok [.createTable ⟨false, .ofIdent (.bare "t"),
        [⟨.bare "a", ⟨"INT", [], [], 0⟩, false, none, false⟩], [],
        [⟨"ENGINE", .bare "m", true⟩]⟩] := by decide +kernel
  have herror : parse .mysql "CREATE TABLE t (a INT," = .error ⟨.unexpected .identifier
      ⟨.endOfInput, "", ⟨22, 22⟩⟩ none, .columnDefinition⟩ := by decide +kernel
  have hplain : Dialect.mysql.keyword? "m" = none := by decide +kernel
  refine ⟨⟨htable, (parse_same_tokens htable ?_).resolve_right ?_⟩, hcomma,
    (parse_same_tokens hcomma ?_).resolve_left ?_⟩
  · simp [hparse, Statement.options, TableOption.HasReservedValue, hplain, Ident.bare]
  · simp [hparse]
  · simp [herror]
  · simp [herror]

end Script

end SchemaDiff
