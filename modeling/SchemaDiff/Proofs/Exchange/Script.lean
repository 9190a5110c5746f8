import SchemaDiff.Proofs.Exchange.Parts

namespace SchemaDiff.Parser.Rereads

variable {α : Type} {d : Dialect}

section Tables

theorem ifNotExists (c : Context) : Rereads False .pair (Parser.ifNotExists c) :=
  consume (Exchange.keeps_pair _) (by simp) ((expectKeyword _ c).weaken.bind fun _ =>
    (expectKeyword _ c).weaken.bind fun _ => pure _) (pure _)

theorem ifExists (c : Context) : Rereads False .pair (Parser.ifExists c) :=
  consume (Exchange.keeps_pair _) (by simp) ((expectKeyword _ c).weaken.bind fun _ => pure _) (pure _)

theorem tableElements (table : ObjectName) : Rereads False .pair (Parser.tableElements d table) :=
  check_pair (fun _ _ => .pure []) fun s _ =>
    commaSeparated (tableElement table) (Exchange.keeps_pair _) s

theorem advance_pure {s : Cursor} {g : Token → α} (hend : s.current.kind ≠ .endOfInput)
    (hg : ∀ t, g t = g t.face.token) :
    RereadsAt True .pair (Parser.advance >>= fun t => Pure.pure (g t)) s :=
  .advance (fun t => by rw [hg t]) hend (pure _)

theorem optionValue : Rereads True .pair Parser.optionValue := by
  intro s
  refine .current (fun _ => rfl) (.inl trivial) ?_
  cases hk : s.current.kind with
  | quotedIdentifier q => exact advance_pure (by simp [hk]) fun _ => rfl
  | identifier => exact advance_pure (by simp [hk]) fun _ => rfl
  | keyword k => exact advance_pure (by simp [hk]) fun _ => rfl
  | number => exact advance_pure (by simp [hk]) fun _ => rfl
  | string => exact advance_pure (by simp [hk]) fun _ => rfl
  | _ => exact .fail _ _

theorem optionEnd (name : List String) : Rereads True .pair (Parser.optionEnd name) :=
  bind_takes (consumeOnly (Exchange.keeps_pair _) (by simp)) fun _ => optionValue.bind fun _ =>
    (consumeOnly (Exchange.keeps_pair _) (by simp)).bind fun _ => pure _

-- The words that make up the name of an option are read again.
theorem tableOption? : Rereads False .pair (Parser.tableOption? d) := by
  intro s a v h
  obtain ⟨F, words, u, hfaces, hF, hresult, hnone, -⟩ := tableOption?_cases (d := d) s
  rw [hresult] at h
  by_cases hnil : words = []
  · obtain ⟨rfl, hnot⟩ := hnone hnil
    rw [if_pos hnil] at h
    cases h
    exact ⟨[], hfaces, False.elim, fun Y hY => steps_tableOption?_none (hY.1 ▸ hnot)⟩
  · rw [if_neg hnil] at h
    by_cases hknown : d.tableOptions.contains words = true
    · rw [if_pos hknown] at h
      obtain ⟨r, hr, -, hsteps⟩ := optionEnd words u a v h
      refine ⟨F ++ r, by rw [hfaces, hr, List.append_assoc], False.elim, ?_⟩
      intro Y hY
      rw [List.append_assoc]
      exact steps_tableOption? (by simpa using hknown) hF (hsteps Y hY)
    · rw [if_neg hknown] at h
      cases h

theorem tableOptions : Rereads False .pair (Parser.tableOptions d) :=
  many tableOption?

theorem createTable : Rereads False .pair (Parser.createTable d) :=
  (ifNotExists _).bind fun _ => (objectName Exchange.parted_pair _).weaken.bind fun name =>
    (inParens (tableElements name)).bind fun _ => tableOptions.bind fun _ => pure _

end Tables

section Indexes

theorem createIndex (isUnique : Bool) : Rereads False .pair (Parser.createIndex isUnique) := by
  have hmethod : Rereads False .pair Parser.indexMethod? :=
    consume (Exchange.keeps_pair _) (by simp) ((ident _).weaken.map some) (pure none)
  have hpredicate : Rereads False .pair Parser.indexPredicate? :=
    consume (Exchange.keeps_pair _) (by simp) (expr.weaken.map some) (pure none)
  have hname (c : Context) : Rereads False .pair (Parser.objectName c) :=
    (objectName Exchange.parted_pair c).weaken
  exact (ifNotExists _).bind fun _ => (hname _).bind fun _ => (expectKeyword _ _).weaken.bind fun _ =>
    (hname _).bind fun _ => hmethod.bind fun _ => (columnList _).bind fun _ =>
      hpredicate.bind fun _ => pure _

theorem create : Rereads True .pair (Parser.create d) := by
  refine (expectKeyword _ _).bind fun _ => ?_
  refine consume (Exchange.keeps_pair _) (by simp) ((expectKeyword _ _).weaken.bind fun _ =>
    (createIndex true).map _) ?_
  refine consume (Exchange.keeps_pair _) (by simp) ((createIndex false).map _) ?_
  exact consume (Exchange.keeps_pair _) (by simp) (createTable.map _) (fail _ _)

end Indexes

section Changes

variable (table : ObjectName)

theorem addedColumn : Rereads False .pair (Parser.addedColumn d table) :=
  (columnDefinition table).weaken.bind fun _ => pure _

theorem notValid_of_faces (s : Cursor) : Parser.notValid s =
    if (Face.first s.faces).kind == .keyword .not &&
        (Face.first s.faces.tail).kind == .keyword .valid then
      .ok true s.next.next
    else .ok false s := by
  have hcurrent : s.current.kind = (Face.first s.faces).kind := congrArg Face.kind s.face_current
  have hnext : s.ahead.tail.head?.any (·.kind == .keyword .valid) =
      ((Face.first s.faces.tail).kind == .keyword .valid) := by
    rw [Cursor.faces, ← List.map_tail]
    cases s.ahead.tail <;> rfl
  rw [notValid_eq, hcurrent, hnext]

theorem notValid : Rereads False .pair Parser.notValid := by
  intro s a u h
  rw [notValid_of_faces] at h
  split at h
  · rename_i hboth
    cases h
    obtain ⟨hnot, hvalid⟩ := Bool.and_eq_true_iff.mp hboth
    obtain ⟨f, f', X, hfaces⟩ : ∃ f f' X, s.faces = f :: f' :: X := by
      cases hs : s.faces with
      | nil => simp [hs, Face.first] at hnot
      | cons f rest =>
          cases rest with
          | nil => simp [hs, Face.first] at hvalid
          | cons f' X => exact ⟨f, f', X, rfl⟩
    have htail (t : Cursor) : t.next.next.faces = t.faces.tail.tail := by
      simp [Cursor.next, Cursor.faces]
    refine ⟨[f, f'], by rw [htail, hfaces]; rfl, False.elim, fun Y _ t ht => ?_⟩
    refine ⟨t.next.next, ?_, by rw [htail, ht]; rfl⟩
    rw [hfaces] at hnot hvalid
    rw [notValid_of_faces, ht]
    exact if_pos (Bool.and_eq_true_iff.mpr ⟨hnot, hvalid⟩)
  · rename_i hnone
    cases h
    refine ⟨[], rfl, False.elim, fun Y hY t ht => ⟨t, ?_, ht⟩⟩
    rw [notValid_of_faces, ht]
    refine if_neg fun hboth => hnone ?_
    rw [List.nil_append, hY.1] at hboth
    obtain ⟨hnot, hvalid⟩ := Bool.and_eq_true_iff.mp hboth
    rw [hY.2 (eq_of_beq hnot)] at hvalid
    exact Bool.and_eq_true_iff.mpr ⟨hnot, hvalid⟩

theorem columnChange : Rereads True .pair (Parser.columnChange d) := by
  have htype : Rereads False .pair (Parser.dataType d >>= fun type =>
      Pure.pure (ColumnChange.setDataType type)) :=
    (dataType Exchange.parted_pair).weaken.map _
  intro s
  refine .current (fun _ => rfl) (.inl trivial) ?_
  split
  · rename_i hk
    refine advance_keyword hk (fun _ => rfl) (P := False) ?_
    refine consume (Exchange.keeps_pair _) (by simp) ((expectKeyword _ _).weaken.bind fun _ => htype) ?_
    refine consume (Exchange.keeps_pair _) (by simp) (expr.weaken.map _) ?_
    exact consume (Exchange.keeps_pair _) (by simp)
      ((expectKeyword _ _).weaken.bind fun _ => pure _) (fail _ _)
  · rename_i hk
    exact advance_keyword hk (fun _ => rfl) htype
  · rename_i hk
    refine advance_keyword hk (fun _ => rfl) (P := False) ?_
    refine consume (Exchange.keeps_pair _) (by simp) (pure _) ?_
    exact consume (Exchange.keeps_pair _) (by simp)
      ((expectKeyword _ _).weaken.bind fun _ => pure _) (fail _ _)
  · exact .fail _ _

theorem addChange : Rereads False .pair (Parser.addChange d table) := by
  refine consume (Exchange.keeps_pair _) (by simp) (addedColumn table) fun s => ?_
  refine .current (fun _ => rfl) (.inr fun Y hY => .inl hY.1) ?_
  split
  · exact ((tableConstraint table).bind fun _ => notValid.bind fun _ => pure _) s
  · exact addedColumn table s

theorem dropChange : Rereads False .pair Parser.dropChange :=
  consume (Exchange.keeps_pair _) (by simp) ((ident _).weaken.map _)
    (consume (Exchange.keeps_pair _) (by simp) ((ident _).weaken.map _) (fail _ _))

theorem alterChange : Rereads False .pair (Parser.alterChange d) :=
  (consumeOnly (Exchange.keeps_pair _) (by simp)).bind fun _ => (ident _).weaken.bind fun name =>
    columnChange.weaken.map _

-- Where the column starts makes a difference for an error only.
theorem modifyChange : Rereads False .pair (Parser.modifyChange d table) := by
  refine (consumeOnly (Exchange.keeps_pair _) (by simp)).bind fun _ s a u h => ?_
  obtain ⟨start, v, hstart, h⟩ := bind_eq_ok.mp h
  cases hstart
  obtain ⟨definition, w, hdefinition, h⟩ := bind_eq_ok.mp h
  obtain ⟨r, hr, -, hsteps⟩ := columnDefinition table s definition w hdefinition
  split at h
  · rename_i hempty
    cases h
    refine ⟨r, hr, False.elim, fun Y hY => .current fun t _ => (hsteps Y hY).bind ?_⟩
    rw [if_pos hempty]
    exact .pure _ Y
  · cases h

theorem renameChange : Rereads False .pair Parser.renameChange := by
  have hboth (c : Context) (g : Ident → Ident → TableChange) : Rereads False .pair
      (Parser.ident c >>= fun old => Parser.expectKeyword .toWord .alterTableAction >>= fun _ =>
        Parser.ident c >>= fun new => Pure.pure (g old new)) :=
    (ident c).weaken.bind fun old => (expectKeyword _ _).weaken.bind fun _ =>
      (ident c).weaken.map (g old)
  refine consume (Exchange.keeps_pair _) (by simp) ((ident _).weaken.map _) ?_
  refine consume (Exchange.keeps_pair _) (by simp) (hboth _ _) ?_
  exact consume (Exchange.keeps_pair _) (by simp) (hboth _ _) (fail _ _)

theorem tableChanges : Rereads False .pair (Parser.tableChanges d table) := by
  intro s
  refine .current (fun _ => rfl) (.inr fun Y hY => .inl hY.1) ?_
  split
  · rename_i hk
    exact advance_keyword hk (fun _ => rfl) (addChange table)
  · rename_i hk
    exact advance_keyword hk (fun _ => rfl) (dropChange.map _)
  · rename_i hk
    exact advance_keyword hk (fun _ => rfl) (alterChange.map _)
  · rename_i hk
    exact advance_keyword hk (fun _ => rfl) ((modifyChange table).map _)
  · rename_i hk
    exact advance_keyword hk (fun _ => rfl) (renameChange.map _)
  · exact .fail _ _

theorem alterTable : Rereads True .pair (Parser.alterTable d) :=
  (expectKeyword _ _).bind fun _ => (expectKeyword _ _).weaken.bind fun _ =>
    (objectName Exchange.parted_pair _).weaken.bind fun name =>
      (commaSeparated (tableChanges name) (Exchange.keeps_pair _)).bind fun _ => pure _

theorem drop : Rereads True .pair Parser.drop := by
  have hname (c : Context) : Rereads False .pair (Parser.objectName c) :=
    (objectName Exchange.parted_pair c).weaken
  refine (expectKeyword _ _).bind fun _ => ?_
  refine consume (Exchange.keeps_pair _) (by simp) ((ifExists _).bind fun _ => (hname _).map _) ?_
  refine consume (Exchange.keeps_pair _) (by simp) ((ifExists _).bind fun _ => (hname _).bind
    fun _ => ?_) (fail _ _)
  exact consume (Exchange.keeps_pair _) (by simp) ((hname _).map _) (pure _)

end Changes

theorem statementEnd : Rereads False .pair Parser.statementEnd := by
  intro s
  refine .current (fun _ => rfl) (.inr fun Y hY => .inl hY.1) ?_
  dsimp only
  split
  · exact .pure ()
  · exact .fail _ _

theorem statements? : Rereads False .pair (Parser.statements? d) := by
  intro s
  refine .current (fun _ => rfl) (.inr fun Y hY => .inl hY.1) ?_
  split
  · exact .pure none
  · rename_i hk
    exact RereadsAt.of_takes (.advance (fun _ => rfl) (by simp [hk]) (pure (some [])))
  · exact (create.weaken.bind fun _ => statementEnd.bind fun _ => pure _) s
  · exact (alterTable.weaken.bind fun _ => statementEnd.bind fun _ => pure _) s
  · exact (drop.weaken.bind fun _ => statementEnd.bind fun _ => pure _) s
  · exact .fail _ _

end SchemaDiff.Parser.Rereads
