import SchemaDiff.Proofs.Completion.Expr
import SchemaDiff.Proofs.Parser.Composition

namespace SchemaDiff

namespace Parser

open Follow

section Closing

variable {Y : List Face}

theorem ne_of_closing {k : TokenKind} (hk : closing.Avoids [] k)
    (h : closing.Allows (Face.first Y).kind) : (Face.first Y).kind ≠ k :=
  hk.ne h

theorem isWord_of_closing (h : closing.Allows (Face.first Y).kind) (word : String) :
    (Face.first Y).token.isWord word = false := by
  have hne : (Face.first Y).kind ≠ .identifier := ne_of_closing (by decide) h
  rw [Token.isWord, Face.token, beq_false_of_ne hne, Bool.false_and]

theorem keyword?_of_closing (h : closing.Allows (Face.first Y).kind) :
    (Face.first Y).token.keyword? = none := by
  have hkind : (Face.first Y).kind ∈ _ := h _ rfl
  simp only [List.mem_cons, List.not_mem_nil, or_false] at hkind
  rcases hkind with hkind | hkind | hkind | hkind <;> simp [Token.keyword?, Face.token, hkind]

end Closing

namespace Viable

variable {d : Dialect} {l : Lookahead} {φ : Follow}

section Names

theorem ident (c : Context) : Viable d l φ (Parser.ident c) [Face.filler] := by
  refine current_advance Face.filler (Face.genuine_filler d) (fun _ => rfl) (fun s hs => ?_)
    (pure (.bare "x")) rfl
  split
  · rename_i name hname
    refine .advance hs (fun _ => rfl) (fun hend => ?_) (pure name)
    simp [identOf?, hend] at hname
  · exact .fail _ c

theorem objectName (c : Context) (h : φ.Avoids [] (.symbol .dot)) :
    Viable d l φ (Parser.objectName c) [Face.filler] :=
  (ident (φ := none) c).seq (fun _ => skipped _ (by simp) ((ident c).map _) (pure _) h) (.any _ _)

theorem columnIdent (c : Context) : Viable d l closing (Parser.columnIdent c) [Face.filler] := by
  refine (ident (φ := none) c).seq (fun name => ?_) (.any _ _)
  refine skipped _ (by simp) (pure _) ?_ (by decide)
  exact (consume _ (by simp) (by decide)).map _

theorem columnList (c : Context) : Viable d l φ (Parser.columnList c)
    [Face.symbol .leftParen, Face.filler, Face.symbol .rightParen] :=
  inParens (commaSeparated (l := .token) (φ := some [.symbol .rightParen]) (columnIdent c) (by decide)
    (by decide)) (by decide)

theorem constraintName? (h : φ.Avoids [] (.keyword .constraint)) :
    Viable d l φ Parser.constraintName? [] :=
  skipped _ (by simp) ((ident _).map _) (pure _) h

theorem ifNotExists (c : Context) (h : φ.Avoids [] (.keyword .ifWord)) :
    Viable d l φ (Parser.ifNotExists c) [] := by
  have hrest : Viable d l φ (Parser.expectKeyword .existsWord c >>= fun _ => Pure.pure true)
      [Face.keyword .existsWord] := (expectKeyword .existsWord rfl c).map _
  have hnot := (expectKeyword (φ := none) .not rfl c).seq (fun _ => hrest) (.any _ _)
  exact skipped _ (by simp) hnot (pure _) h

theorem ifExists (c : Context) (h : φ.Avoids [] (.keyword .ifWord)) :
    Viable d l φ (Parser.ifExists c) [] :=
  skipped _ (by simp) ((expectKeyword .existsWord rfl c).map _) (pure _) h

end Names

section Columns

theorem qualifiedTypeWord (h : φ.Avoids [] (.symbol .dot)) :
    Viable d l φ Parser.qualifiedTypeWord [Face.filler] := by
  have hrest (first : String) : Viable d l φ (Parser.consumeSymbol .dot >>= fun found =>
      if found then Parser.ident .dataType >>= fun part => Pure.pure (first ++ "." ++ part.raw)
      else Pure.pure first) [] :=
    skipped _ (by simp) ((ident _).map _) (pure _) h
  refine current_advance Face.filler (Face.genuine_filler d) (fun _ => rfl) (fun s hs => ?_)
    (hrest (Text.upper "x")) rfl
  split
  · rename_i first hfirst
    refine .advance hs (fun _ => rfl) (fun hend => ?_) (hrest first)
    simp [typeWord?, hend] at hfirst
  · exact .fail _ _

theorem typeName : Viable d l closing Parser.typeName [Face.filler] := by
  refine (qualifiedTypeWord (φ := closing) (by decide)).seq (fun name => ?_) (by decide)
  split
  · exact optionalWord _ (pure _) (pure _) (by decide)
  · exact pure name

theorem typeParam : Viable d l φ Parser.typeParam [Face.filler] := by
  have hrest (name : Ident) : Viable d l φ (Pure.pure name : Parser Ident) [] := pure name
  refine current (fun _ => rfl) (fun s hs => ?_) (by simpa using Face.genuine_filler d) (fun Y _ => ?_)
    ⟨.bare "x"⟩
  · split
    · rename_i hkind
      exact .advance hs (fun _ => rfl) (by simp [hkind]) (hrest _)
    · rename_i hkind
      exact .advance hs (fun _ => rfl) (by simp [hkind]) (hrest _)
    · rename_i hkind
      exact .advance hs (fun _ => rfl) (by simp [hkind]) (hrest _)
    · exact .fail _ _
  · exact ⟨.bare "x", .advance fun t ht => by
      obtain ⟨kind, literal, span⟩ := t
      cases ht
      exact .pure _ Y⟩

theorem typeParams : Viable d l closing Parser.typeParams [] := by
  refine absent (fun s hs => ?_) (pure []) (by decide)
  have hlist : Viable d l closing (Parser.inParens .typeParameters .commaOrCloseParen
      (Parser.commaSeparated Parser.typeParam)) _ :=
    inParens (commaSeparated (l := .token) (φ := some [.symbol .rightParen]) typeParam (.any _ _)
      (by decide)) (by decide)
  exact hlist.everywhere s hs

theorem timeZone (type : String) : Viable d l closing (Parser.timeZone type) [] := by
  have hwords (zone : String) : Viable d l closing (Parser.expectWord "TIME" .dataType >>= fun _ =>
      Parser.expectWord "ZONE" .dataType >>= fun _ => Pure.pure [zone])
      [Face.word "TIME", Face.word "ZONE"] := by
    have hgenuine : (Face.word "TIME").Genuine d ∧ (Face.word "ZONE").Genuine d :=
      ⟨Face.genuine_word (Face.isWord_of_looks (by decide)) (by cases d <;> decide +kernel),
        Face.genuine_word (Face.isWord_of_looks (by decide)) (by cases d <;> decide +kernel)⟩
    exact (expectWord (φ := none) _ hgenuine.1 (by decide) _).seq
      (fun _ => (expectWord _ hgenuine.2 (by decide) _).map _) (.any _ _)
  refine current (fun _ => rfl) (fun s hs => ?_) (by simp) (fun Y hY => ?_) ⟨[]⟩
  · split
    · rename_i hword
      simp only [Bool.and_eq_true, Bool.or_eq_true] at hword
      exact .advance hs (fun _ => rfl) (hword.2.elim Token.isWord_ne Token.isWord_ne).1 (hwords _)
    · exact .pure []
  · rw [List.nil_append, isWord_of_closing hY, isWord_of_closing hY, Bool.or_self, Bool.and_false]
    exact ⟨[], .pure [] Y⟩

theorem typeSuffixes : Viable d l closing (Parser.many (Parser.typeSuffix? d)) [] := by
  refine many (l := .token) (fun s hs => ?_) (.token _ _) (fun _ _ _ _ h => h.toToken) fun Y hY => ?_
  · refine .current (fun _ => rfl) ?_
    split
    · rename_i word hword
      exact .advance hs (fun _ => rfl) (Token.isWord_ne (List.find?_some hword)).1 (pure (some word))
    · exact .pure none
  · refine .current fun t ht => ?_
    have hnone : d.typeSuffixes.find? t.isWord = none := by
      refine List.find?_eq_none.mpr fun word _ => ?_
      have hword := isWord_of_closing hY word
      rw [← ht] at hword
      exact Bool.eq_false_iff.mp hword
    rw [hnone]
    exact .pure none Y

theorem arrayDims : Viable d l closing (Parser.arrayDims d) [] := by
  have hdims : Viable d l closing (Parser.many Parser.arrayDim?) [] := by
    refine many (l := .token) (fun s hs => ?_) (.token _ _) (fun _ _ _ _ h => h.toToken) fun Y hY => ?_
    · have hclose : Viable d .token closing
          (Parser.expectSymbol .rightBracket .closeBracket .dataType >>=
            fun _ => Pure.pure (some ())) [Face.symbol .rightBracket] :=
        (expectSymbol _ rfl _ _).map _
      have hsize := (consume (φ := some [.symbol .rightBracket]) .number (by simp) (by decide)).seq
        (fun _ => hclose) (by decide)
      exact .consume hs (by simp) hsize fun _ => .pure none
    · exact .bind (.consume_false (ne_of_closing (by decide) hY))
        (.pure none Y)
  cases d with
  | mysql => exact pure []
  | postgres => exact hdims
  | cockroach => exact hdims

theorem dataType : Viable d l closing (Parser.dataType d) [Face.filler] :=
  typeName.seq (fun name => typeParams.seq (fun _ => (timeZone name).seq (fun _ => typeSuffixes.seq
    (fun _ => arrayDims.map _) (.refl _)) (.refl _)) (.refl _)) (.refl _)

theorem referentialAction : Viable d l φ Parser.referentialAction [Face.keyword .cascade] := by
  have hnull : Viable d l φ (Parser.consumeKeyword .null >>= fun found =>
      if found then Pure.pure ReferentialAction.setNull
      else Parser.consumeKeyword .default >>= fun found =>
        if found then Pure.pure ReferentialAction.setDefault
        else Parser.fail .nullOrDefault .referentialAction) [Face.keyword .null] := by
    refine keyword .null rfl (pure _) fun s hs => ?_
    exact .consume hs (by simp) (pure _) fun _ => .fail _ _
  refine current_advance (Face.keyword .cascade) (Face.genuine_keyword (Face.keyword?_text d rfl))
    (fun _ => rfl) (fun s hs => ?_) (pure .cascade) rfl
  split
  · rename_i hk
    exact .advance hs (fun _ => rfl) (Token.keyword?_ne hk).1 (pure _)
  · rename_i hk
    exact .advance hs (fun _ => rfl) (Token.keyword?_ne hk).1 (pure _)
  · rename_i hk
    exact .advance hs (fun _ => rfl) (Token.keyword?_ne hk).1 ((expectKeyword .action rfl _).map _)
  · rename_i hk
    exact .advance hs (fun _ => rfl) (Token.keyword?_ne hk).1 hnull
  · exact .fail _ _

theorem referenceClauses : Viable d l closing (Parser.many Parser.referenceClause?) [] := by
  refine many (l := .token) (fun s hs => ?_) (.token _ _) (fun _ _ _ _ h => h.toToken) fun Y hY => ?_
  · have hevent : Viable d .token closing (Parser.consumeKeyword .delete >>= fun found =>
        if found then Parser.referentialAction >>= fun action =>
          Pure.pure (some (ReferenceClause.onDelete action))
        else Parser.consumeKeyword .update >>= fun found =>
          if found then Parser.referentialAction >>= fun action =>
            Pure.pure (some (ReferenceClause.onUpdate action))
          else Parser.fail .deleteOrUpdate .references)
          [Face.keyword .delete, Face.keyword .cascade] := by
      refine keyword .delete rfl (referentialAction.map _) fun s hs => ?_
      exact .consume hs (by simp) (referentialAction.map _) fun _ => .fail _ _
    exact .consume hs (by simp) hevent fun _ => .pure none
  · exact .bind (.consume_false (ne_of_closing (by decide) hY))
      (.pure none Y)

theorem referencedColumns : Viable d l closing Parser.referencedColumns [] :=
  absent (fun s hs => (columnList _).everywhere s hs) (pure []) (by decide)

theorem reference : Viable d l closing Parser.reference [Face.keyword .references, Face.filler] :=
  (expectKeyword (φ := none) .references rfl _).seq (fun _ =>
    (objectName (φ := closing) _ (by decide)).seq (fun _ => referencedColumns.seq
      (fun _ => referenceClauses.map _) (.refl _)) (.refl _)) (.any _ _)

theorem foreignKey (table : ObjectName) (name : Option Ident) (columns : List ColumnIdent) :
    Viable d l closing (Parser.foreignKey d table name columns)
      [Face.keyword .references, Face.filler] :=
  reference.map _

theorem columnAttribute? {s : Cursor} (hs : Unmodified s) :
    ViableAt d .notNull closing Parser.columnAttribute? s := by
  refine .current (fun _ => rfl) ?_
  split
  · rename_i hk
    exact .advance hs (fun _ => rfl) (Token.keyword?_ne hk).1 ((expectKeyword .null rfl _).map _)
  · rename_i hk
    exact .advance hs (fun _ => rfl) (Token.keyword?_ne hk).1 (pure _)
  · rename_i hk
    exact .advance hs (fun _ => rfl) (Token.keyword?_ne hk).1 ((expr .columnDefault _).map _)
  · rename_i hk
    exact .advance hs (fun _ => rfl) (Token.keyword?_ne hk).1 (pure _)
  · exact .pure none

theorem columnClause? (table : ObjectName) (column : Ident) {s : Cursor} (hs : Unmodified s) :
    ViableAt d .notNull closing (Parser.columnClause? d table column) s := by
  refine .bind hs ((constraintName? (l := .token) (φ := some [.keyword .unique]) (by decide)).everywhere
    s hs) (fun name => ?_) (Z := [Face.keyword .unique]) (by decide) fun _ => .token _ _
  have hunique : Viable d .notNull closing (Parser.consumeKeyword .key >>= fun _ => Pure.pure (some
      (ColumnClause.constraint (uniqueConstraint d table name [.ascending column])))) [] :=
    (consume _ (by simp) (by decide)).map _
  refine current_advance (Face.keyword .unique) (Face.genuine_keyword (Face.keyword?_text d rfl))
    (fun _ => rfl) (fun s hs => ?_) hunique rfl
  split
  · rename_i hk
    exact .advance hs (fun _ => rfl) (Token.keyword?_ne hk).1 ((expectKeyword .key rfl _).map _)
  · rename_i hk
    exact .advance hs (fun _ => rfl) (Token.keyword?_ne hk).1 hunique
  · exact ((foreignKey table name _).map _).everywhere s hs
  · rename_i hk
    refine .advance hs (fun _ => rfl) (Token.keyword?_ne hk).1 (checkBody fun body body' h => ?_)
    rw [exprOf_of_faces h]
  · split
    · exact .fail _ _
    · exact columnAttribute? hs

-- No clause begins there, so the list of clauses ends.
theorem steps_columnClause?_none (table : ObjectName) (column : Ident) {Y : List Face}
    (hY : closing.Allows (Face.first Y).kind) :
    Steps (Parser.columnClause? d table column) Y none Y := by
  have hconstraint : (Face.first Y).kind ≠ .keyword .constraint := ne_of_closing (by decide) hY
  have hkeyword {t : Token} (ht : t.face = Face.first Y) : t.keyword? = none := by
    have h := keyword?_of_closing hY
    rw [← ht] at h
    exact h
  refine .bind (.bind (.consume_false hconstraint) (.pure none Y)) (.current fun t ht => ?_)
  rw [hkeyword ht]
  refine .current fun t' ht' => ?_
  rw [hkeyword ht']
  exact .pure none Y

theorem columnAttribute?_eq_none {s u : Cursor} (h : Parser.columnAttribute? s = .ok none u) :
    u.current.keyword? ≠ some .not := by
  obtain ⟨t, v, ht, h⟩ := bind_eq_ok.mp h
  cases ht
  generalize hk : s.current.keyword? = k at h
  split at h
  · obtain ⟨-, v, -, h⟩ := bind_eq_ok.mp h
    obtain ⟨-, w, -, h⟩ := bind_eq_ok.mp h
    cases h
  · obtain ⟨-, v, -, h⟩ := bind_eq_ok.mp h
    cases h
  · obtain ⟨-, v, -, h⟩ := bind_eq_ok.mp h
    obtain ⟨value, w, -, h⟩ := bind_eq_ok.mp h
    cases h
  · obtain ⟨-, v, -, h⟩ := bind_eq_ok.mp h
    cases h
  · rename_i hnot _ _ _
    cases h
    rw [hk]
    exact hnot

theorem columnClause?_eq_none {table : ObjectName} {column : Ident} {s u : Cursor}
    (h : Parser.columnClause? d table column s = .ok none u) : u.current.keyword? ≠ some .not := by
  obtain ⟨name, v, -, h⟩ := bind_eq_ok.mp h
  obtain ⟨t, w, ht, h⟩ := bind_eq_ok.mp h
  cases ht
  generalize v.current.keyword? = k at h
  split at h
  · obtain ⟨-, v, -, h⟩ := bind_eq_ok.mp h
    obtain ⟨-, w, -, h⟩ := bind_eq_ok.mp h
    cases h
  · obtain ⟨-, v, -, h⟩ := bind_eq_ok.mp h
    obtain ⟨-, w, -, h⟩ := bind_eq_ok.mp h
    cases h
  · obtain ⟨c, v, -, h⟩ := bind_eq_ok.mp h
    cases h
  · obtain ⟨-, v, -, h⟩ := bind_eq_ok.mp h
    obtain ⟨body, w, -, h⟩ := bind_eq_ok.mp h
    cases h
  · split at h
    · cases h
    · exact columnAttribute?_eq_none h

theorem steps_columnClause?_notNull (table : ObjectName) (column : Ident) {f f' : Face}
    (hf : f.kind = .keyword .not) (hf' : f'.kind = .keyword .null) (X : List Face) :
    Steps (Parser.columnClause? d table column) (f :: f' :: X) (some .notNull) X := by
  have hconstraint : (Face.first (f :: f' :: X)).kind ≠ .keyword .constraint := by
    rw [Face.first_cons, hf]
    simp
  have hkeyword {t : Token} (ht : t.face = f) : t.keyword? = some .not := by
    have hkind : t.kind = .keyword .not := (congrArg Face.kind ht).trans hf
    rw [Token.keyword?, hkind]
  refine .bind (.bind (.consume_false hconstraint) (.pure none _)) (.current fun t ht => ?_)
  rw [hkeyword ht]
  refine .current fun t' ht' => ?_
  rw [hkeyword ht']
  exact .advance fun _ _ => .bind (.expectKeyword hf') (.pure _ X)

-- `NOT` is read together with the `NULL` behind it.
theorem passes_columnClause? (table : ObjectName) (column : Ident) :
    Passes .notNull l (Parser.columnClause? d table column) := by
  refine .of_not fun t hnot => ?_
  by_cases hnull : (Face.first t.faces.tail).kind = .keyword .null
  · obtain ⟨f, f', X, hfaces⟩ : ∃ f f' X, t.faces = f :: f' :: X := by
      cases ht : t.faces with
      | nil => simp [ht, Face.first] at hnot
      | cons f rest =>
          cases rest with
          | nil => simp [ht, Face.first] at hnull
          | cons f' X => exact ⟨f, f', X, rfl⟩
    rw [hfaces] at hnot hnull
    obtain ⟨v, hv, hX⟩ := steps_columnClause?_notNull (d := d) table column hnot hnull X t hfaces
    constructor
    · intro b u r Y hq hr _
      rw [hv] at hq
      cases hq
      rw [hX, hfaces] at hr
      have hr : [f, f'] ++ X = r ++ X := hr
      obtain rfl := List.append_cancel_right hr
      rw [hfaces]
      exact ⟨rfl, fun _ _ => hnull⟩
    · intro e u r Y hq
      rw [hv] at hq
      cases hq
  · have htoken := Passes.token l (Parser.columnClause? d table column) t
    exact ⟨fun b u r Y hq hr hY => ⟨(htoken.ok b u r Y hq hr hY).1, fun _ h => absurd h hnull⟩,
      fun e u r Y hq he hr hne => ⟨(htoken.error e u r Y hq he hr hne).1, fun _ h => absurd h hnull⟩⟩

theorem columnClauses (table : ObjectName) (column : Ident) :
    Viable d l closing (Parser.many (Parser.columnClause? d table column)) [] := by
  refine many (fun s hs => columnClause? table column hs) (passes_columnClause? table column)
    (fun s u Y h hY => .of_ne_not hY.1 fun hnot => columnClause?_eq_none h ?_)
    fun Y => steps_columnClause?_none table column
  rw [← u.face_current] at hnot
  have hkind : u.current.kind = .keyword .not := hnot
  rw [Token.keyword?, hkind]

theorem columnDefinition (table : ObjectName) :
    Viable d l closing (Parser.columnDefinition d table) [Face.filler, Face.filler] :=
  (ident (φ := none) _).seq (fun name => dataType.seq (fun _ => (columnClauses table name).map _)
    (.refl _)) (.any _ _)

end Columns

end Viable

end Parser

end SchemaDiff
