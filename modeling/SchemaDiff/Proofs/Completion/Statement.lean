import SchemaDiff.Proofs.Completion.Table

namespace SchemaDiff

namespace Parser

open Follow

namespace Viable

variable {α : Type} {d : Dialect} {l : Lookahead} {φ : Follow}

section Creations

theorem indexMethod? : Viable d l (some [.symbol .leftParen]) Parser.indexMethod? [] :=
  skipped _ (by simp) ((ident _).map _) (pure _) (by decide)

theorem indexPredicate? : Viable d l ending Parser.indexPredicate? [] := by
  have hpredicate : Viable d l ending (Parser.expr .statement .indexPredicate >>= fun predicate =>
      Pure.pure (some predicate)) [Face.filler] :=
    (expr .statement _).seq (fun _ => pure _) (by decide)
  exact skipped _ (by simp) hpredicate (pure _) (by decide)

theorem createIndex (isUnique : Bool) : Viable d l ending (Parser.createIndex isUnique)
    [Face.filler, Face.keyword .onWord, Face.filler, Face.symbol .leftParen, Face.filler,
      Face.symbol .rightParen] := by
  refine (ifNotExists (l := .token) (φ := some [.identifier]) _ (by decide)).seq (fun _ => ?_)
    (by decide)
  refine (objectName (l := .token) (φ := some [.keyword .onWord]) _ (by decide)).seq
    (fun _ => ?_) (by decide)
  refine (expectKeyword (φ := none) .onWord rfl _).seq (fun _ => ?_) (.any _ _)
  refine (objectName (l := .token) (φ := some [.symbol .leftParen]) _ (by decide)).seq
    (fun _ => ?_) (by decide)
  exact indexMethod?.seq (fun _ => (columnList (φ := none) _).seq (fun _ => indexPredicate?.map _)
    (.any _ _)) (by decide)

theorem create : Viable d l ending (Parser.create d) [Face.keyword .create, Face.keyword .table,
    Face.filler, Face.symbol .leftParen, Face.symbol .rightParen] := by
  have hunique := (expectKeyword (d := d) (l := .token) (φ := none) .index rfl .createIndex).seq
    (fun _ => (createIndex (l := l) true).map Statement.createIndex) (.any _ _)
  refine (expectKeyword (φ := none) .create rfl _).seq (fun _ => ?_) (.any _ _)
  refine skipped _ (by simp) hunique ?_ (by decide)
  refine skipped _ (by simp) ((createIndex false).map _) ?_ (by decide)
  exact keyword .table rfl (createTable.map _) fun s _ => .fail _ _

end Creations

section Changes

theorem addedColumn (table : ObjectName) : Viable d l closing (Parser.addedColumn d table)
    [Face.filler, Face.filler] :=
  (columnDefinition table).map _

theorem steps_notValid {f f' : Face} (hf : f.kind = .keyword .not) (hf' : f'.kind = .keyword .valid)
    (X : List Face) : Steps Parser.notValid (f :: f' :: X) true X := by
  intro s hs
  obtain ⟨t, ts, hahead, rfl, hts⟩ := List.map_eq_cons_iff.mp hs
  obtain ⟨t', rest, rfl, rfl, hrest⟩ := List.map_eq_cons_iff.mp hts
  refine ⟨s.next.next, ?_, ?_⟩
  · have hkind : t.kind = .keyword .not := hf
    have hkind' : t'.kind = .keyword .valid := hf'
    rw [notValid_eq, if_pos]
    simp [Cursor.current, hahead, hkind, hkind']
  · simpa [Cursor.faces, Cursor.next, hahead] using hrest

theorem steps_notValid_false {Y : List Face} (hY : (Face.first Y).kind ≠ .keyword .not) :
    Steps Parser.notValid Y false Y := by
  intro s hs
  have hkind : (s.current.kind == .keyword .not) = false := by
    rw [beq_eq_false_iff_ne]
    have hface : s.current.face.kind ≠ .keyword .not := by rwa [s.face_current, hs]
    exact hface
  exact ⟨s, by rw [notValid_eq, hkind, Bool.false_and, if_neg (by simp)], hs⟩

theorem notValid : Viable d .exceptNot closing Parser.notValid [] where
  everywhere s _ := by
    constructor
    · intro a u h
      rw [notValid_eq] at h
      split at h
      · rename_i hboth
        cases h
        simp only [Bool.and_eq_true, beq_iff_eq, Option.any_eq_true] at hboth
        obtain ⟨hnot, t', ht', hvalid⟩ := hboth
        obtain ⟨f, f', X, hfaces, hf, hf', hX⟩ : ∃ f f' X, s.faces = f :: f' :: X ∧
            f.kind = .keyword .not ∧ f'.kind = .keyword .valid ∧ s.next.next.faces = X := by
          refine ⟨s.current.face, t'.face, _, ?_, hnot, hvalid, rfl⟩
          have hnext : s.next.current = t' := by
            cases hs : s.ahead.tail with
            | nil => simp [hs] at ht'
            | cons u rest => simpa [hs, Cursor.current, Cursor.next] using ht'
          rw [ViableAt.faces_next (by simp [hnot]),
            ViableAt.faces_next (s := s.next) (by simp [hnext, hvalid]), hnext]
        refine ⟨[f, f'], by rw [hfaces, hX]; rfl, fun _ => ⟨[], by simp, fun Y _ => ?_⟩, fun Y _ => ?_⟩
        · exact ⟨true, steps_notValid hf hf' Y⟩
        · exact steps_notValid hf hf' Y
      · cases h
        exact ⟨[], rfl, by simp, fun Y hY => steps_notValid_false (hY.1 ▸ hY.2)⟩
    · intro e u h
      rw [notValid_eq] at h
      split at h <;> cases h
  inhabited := ⟨false⟩
  genuine := by simp
  accepts Y hY := ⟨false, steps_notValid_false
    (ne_of_closing (by decide) hY)⟩

theorem columnChange : Viable d l closing (Parser.columnChange d)
    [Face.keyword .drop, Face.keyword .default] := by
  have hset : Viable d l closing (Parser.consumeKeyword .data >>= fun found =>
      if found then Parser.expectKeyword .type .alterColumn >>= fun _ =>
        Parser.dataType d >>= fun type => Pure.pure (ColumnChange.setDataType type)
      else Parser.consumeKeyword .default >>= fun found =>
        if found then Parser.expr .statement .setDefault >>= fun value =>
          Pure.pure (ColumnChange.setDefault value)
        else Parser.consumeKeyword .not >>= fun found =>
          if found then Parser.expectKeyword .null .alterColumn >>= fun _ =>
            Pure.pure ColumnChange.setNotNull
          else Parser.fail .columnSetting .alterColumn)
      [Face.keyword .data, Face.keyword .type, Face.filler] := by
    refine keyword .data rfl ((expectKeyword (φ := none) .type rfl _).seq (fun _ => dataType.map _)
      (.any _ _)) fun s hs => ?_
    refine .consume hs (by simp) ((expr .statement _).seq (fun _ => pure _) (by decide)) fun _ => ?_
    exact .consume hs (by simp) ((expectKeyword .null rfl _).map _) fun _ => .fail _ _
  have hdrop : Viable d l closing (Parser.consumeKeyword .default >>= fun found =>
      if found then Pure.pure ColumnChange.dropDefault
      else Parser.consumeKeyword .not >>= fun found =>
        if found then Parser.expectKeyword .null .alterColumn >>= fun _ =>
          Pure.pure ColumnChange.dropNotNull
        else Parser.fail .columnRemoval .alterColumn) [Face.keyword .default] := by
    refine keyword .default rfl (pure _) fun s hs => ?_
    exact .consume hs (by simp) ((expectKeyword .null rfl _).map _) fun _ => .fail _ _
  refine current_advance (Face.keyword .drop) (Face.genuine_keyword (Face.keyword?_text d rfl))
    (fun _ => rfl) (fun s hs => ?_) hdrop rfl
  split
  · rename_i hk
    exact .advance hs (fun _ => rfl) (Token.keyword?_ne hk).1 hset
  · rename_i hk
    exact .advance hs (fun _ => rfl) (Token.keyword?_ne hk).1 (dataType.map _)
  · rename_i hk
    exact .advance hs (fun _ => rfl) (Token.keyword?_ne hk).1 hdrop
  · exact .fail _ _

theorem addChange (table : ObjectName) : Viable d .exceptNot closing (Parser.addChange d table)
    [Face.filler, Face.filler] := by
  refine skipped _ (by simp) (addedColumn table) ?_ (by decide)
  have hconstraint : Viable d .exceptNot closing (Parser.tableConstraint d table >>= fun c =>
      Parser.notValid >>= fun notValid => Pure.pure [TableChange.addConstraint c notValid]) _ :=
    (tableConstraint table).seq (fun _ => notValid.map _) (.refl _)
  refine current (fun _ => rfl) (fun s hs => ?_) (by simpa using Face.genuine_filler d)
    (fun Y hY => ?_) ⟨[]⟩
  · split
    · exact hconstraint.everywhere s hs
    · exact (addedColumn table).everywhere s hs
  · exact (addedColumn (l := .token) table).accepts Y hY

theorem dropChange : Viable d l closing Parser.dropChange [Face.keyword .column, Face.filler] := by
  refine keyword .column rfl ((ident _).map _) fun s hs => ?_
  exact .consume hs (by simp) ((ident _).map _) fun _ => .fail _ _

theorem alterChange : Viable d l closing (Parser.alterChange d)
    [Face.filler, Face.keyword .drop, Face.keyword .default] :=
  (consume (φ := some [.identifier]) _ (by simp) (by decide)).seq (fun _ =>
    (ident (φ := none) _).seq (fun _ => columnChange.map _) (.any _ _)) (by decide)

theorem renameChange : Viable d l closing Parser.renameChange [Face.keyword .toWord, Face.filler] := by
  have hboth (c : Context) (g : Ident → Ident → TableChange) : Viable d l closing
      (Parser.ident c >>= fun old => Parser.expectKeyword .toWord .alterTableAction >>= fun _ =>
        Parser.ident c >>= fun new => Pure.pure (g old new))
      [Face.filler, Face.keyword .toWord, Face.filler] :=
    (ident (φ := none) c).seq (fun old => (expectKeyword (φ := none) .toWord rfl _).seq
      (fun _ => (ident c).map (g old)) (.any _ _)) (.any _ _)
  refine keyword .toWord rfl ((ident _).map _) fun s hs => ?_
  refine .consume hs (by simp) (hboth _ _) fun _ => ?_
  exact .consume hs (by simp) (hboth _ _) fun _ => .fail _ _

theorem tableChanges (table : ObjectName) : Viable d .exceptNot closing (Parser.tableChanges d table)
    [Face.keyword .drop, Face.keyword .column, Face.filler] := by
  have hdrop : Viable d .exceptNot closing (Parser.dropChange >>= fun change => Pure.pure [change])
      [Face.keyword .column, Face.filler] := dropChange.map _
  refine current_advance (Face.keyword .drop) (Face.genuine_keyword (Face.keyword?_text d rfl))
    (fun _ => rfl) (fun s hs => ?_) hdrop rfl
  split
  · rename_i hk
    exact .advance hs (fun _ => rfl) (Token.keyword?_ne hk).1 (addChange table)
  · rename_i hk
    exact .advance hs (fun _ => rfl) (Token.keyword?_ne hk).1 hdrop
  · rename_i hk
    exact .advance hs (fun _ => rfl) (Token.keyword?_ne hk).1 (alterChange.map _)
  · rename_i hk
    exact absurd hk (Unmodified.keyword?_ne hs)
  · rename_i hk
    exact .advance hs (fun _ => rfl) (Token.keyword?_ne hk).1 (renameChange.map _)
  · exact .fail _ _

theorem alterTable : Viable d .exceptNot ending (Parser.alterTable d) [Face.keyword .alter,
    Face.keyword .table, Face.filler, Face.keyword .drop, Face.keyword .column, Face.filler] := by
  have hchanges (name : ObjectName) : Viable d .exceptNot ending
      (Parser.commaSeparated (Parser.tableChanges d name)) _ :=
    commaSeparated (tableChanges name) (by decide) (by decide)
  refine (expectKeyword (φ := none) .alter rfl _).seq (fun _ => ?_) (.any _ _)
  refine (expectKeyword (φ := none) .table rfl _).seq (fun _ => ?_) (.any _ _)
  exact (objectName (φ := some [.keyword .drop]) _ (by decide)).seq
    (fun name => (hchanges name).map _) (by decide)

theorem drop : Viable d l ending Parser.drop [Face.keyword .drop, Face.keyword .table,
    Face.filler] := by
  have hname (c c' : Context) (q : Bool → ObjectName → Parser Statement)
      (hq : ∀ ifExists name, Viable d l ending (q ifExists name) []) : Viable d l ending
      (Parser.ifExists c >>= fun ifExists => Parser.objectName c' >>= q ifExists) [Face.filler] :=
    (ifExists (φ := some [.identifier]) c (by decide)).seq
      (fun ifExists => (objectName c' (by decide)).seq (hq ifExists) (.refl _)) (by decide)
  refine (expectKeyword (φ := none) .drop rfl _).seq (fun _ => ?_) (.any _ _)
  refine keyword .table rfl (hname _ _ _ fun _ _ => pure _) fun s hs => ?_
  refine .consume hs (by simp) (hname _ _ _ fun ifExists name => ?_) fun _ => .fail _ _
  exact skipped _ (by simp) ((objectName _ (by decide)).map _) (pure _) (by decide)

end Changes

section Scripts

theorem statementEnd_eq_error {t : Cursor} (h : t.current.kind = .keyword .not) :
    Parser.statementEnd t = .error ⟨.unexpected .semicolon t.current none, .statement⟩ t := by
  refine bind_eq_error.mpr (.inr ⟨t.current, t, rfl, ?_⟩)
  rw [h]
  rfl

-- Behind a statement the text ends, or a semicolon follows.
theorem statementEnd (h : φ.Fits [] ending) : Viable d l φ Parser.statementEnd [] := by
  refine current (fun _ => rfl) (fun s hs => ?_) (by simp) (fun Y hY => ?_) ⟨()⟩
  · dsimp only
    split
    · exact .pure ()
    · exact .fail _ _
  · have hend : (Face.first ([] ++ Y)).kind ∈ _ := h.allows hY _ rfl
    simp only [List.mem_cons, List.not_mem_nil, or_false] at hend
    dsimp only [Face.token]
    rw [if_pos (by simpa using hend)]
    exact ⟨(), .pure () Y⟩

theorem ended {p : Parser α} {Z : List Face} (hp : Viable d .exceptNot ending p Z)
    (g : α → List Statement) : Viable d l (some [.endOfInput])
      (p >>= fun a => Parser.statementEnd >>= fun _ => Pure.pure (some (g a))) (Z ++ []) := by
  refine hp.bind (fun a => (statementEnd (by decide)).map fun _ => some (g a)) (by decide)
    fun a => .of_fails fun t hnot => ⟨_, bind_eq_error.mpr (.inl (statementEnd_eq_error ?_))⟩
  rwa [← t.face_current] at hnot

theorem viableAt_statements? {s : Cursor} (hs : Unmodified s) :
    ViableAt d .token (some [.endOfInput]) (Parser.statements? d) s := by
  refine .current (fun _ => rfl) ?_
  split
  · exact .pure none
  · rename_i hkind
    exact .advance hs (fun _ => rfl) (by simp [hkind]) (pure (some []))
  · exact (ended create fun statement => [statement]).everywhere s hs
  · exact (ended alterTable id).everywhere s hs
  · exact (ended drop fun statement => [statement]).everywhere s hs
  · exact .fail _ _

theorem statements : Viable d .token (some [.endOfInput]) (Parser.many (Parser.statements? d)) [] := by
  refine many (fun s hs => viableAt_statements? hs) (.token _ _) (fun _ _ _ _ h => h) fun Y hY => ?_
  refine .current fun t ht => ?_
  have hkind : t.kind = (Face.first Y).kind := congrArg Face.kind ht
  rw [hkind, List.mem_singleton.mp (hY _ rfl)]
  exact .pure none Y

end Scripts

end Viable

end Parser

end SchemaDiff
