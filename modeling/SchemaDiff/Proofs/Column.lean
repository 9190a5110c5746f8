import SchemaDiff.Proofs.Constraint
import SchemaDiff.Proofs.DataType

namespace SchemaDiff

open SchemaDiff.Parser

variable {d : Dialect}

namespace Column

structure Readable (d : Dialect) (c : Column) : Prop where
  name : c.name.Readable d
  -- A column that began like a constraint would be read as one.
  start : startsTableConstraint d (c.name.face d).token = false
  dataType : c.dataType.Readable d
  default : ∀ e ∈ c.default, e.Readable d .columnDefault
  autoIncrement : c.autoIncrement = true → d.keyword? Keyword.autoIncrement.text = some .autoIncrement

-- What holds of a column wherever it was read. At the end of a statement its default may have been
-- cut off, and its name may be one that only follows `COLUMN`.
structure Gathered (d : Dialect) (c : Column) : Prop where
  name : c.name.Readable d
  dataType : c.dataType.Readable d
  default : ∀ e ∈ c.default, e.Gathered d .columnDefault
  autoIncrement : c.autoIncrement = true → d.keyword? Keyword.autoIncrement.text = some .autoIncrement

theorem Readable.gathered {c : Column} (h : c.Readable d) : c.Gathered d :=
  ⟨h.name, h.dataType, fun e he => (h.default e he).gathered, h.autoIncrement⟩

theorem Gathered.notNull {c : Column} (h : c.Gathered d) (notNull : Bool) :
    ({ c with notNull := notNull } : Column).Gathered d :=
  ⟨h.name, h.dataType, h.default, h.autoIncrement⟩

-- The end of what stands behind the name of the column is found again.
structure Bounded (d : Dialect) (c : Column) : Prop where
  dataType : c.dataType.Readable d
  default : ∀ e ∈ c.default, e.Bounded d .columnDefault
  autoIncrement : c.autoIncrement = true → d.keyword? Keyword.autoIncrement.text = some .autoIncrement

theorem Readable.bounded {c : Column} (h : c.Readable d) : c.Bounded d :=
  ⟨h.dataType, fun e he => (h.default e he).bounded, h.autoIncrement⟩

-- The column as it is kept when it is read.
def reread (d : Dialect) (c : Column) : Column :=
  { c with default := c.default.map (Expr.reread d) }

theorem Readable.reread_eq {c : Column} (h : c.Readable d) : c.reread d = c := by
  obtain ⟨name, type, notNull, default, autoIncrement⟩ := c
  cases default with
  | none => rfl
  | some e => simp [reread, (h.default e rfl).reread_eq]

def Spaced (d : Dialect) (c : Column) : Prop :=
  ∀ e ∈ c.default, e.Spaced d

instance (d : Dialect) : DecidablePred (Spaced d) :=
  fun c => inferInstanceAs (Decidable (∀ e ∈ c.default, e.Spaced d))

end Column

namespace Parser.ColumnClause

def Readable (d : Dialect) : ColumnClause → Prop
  | default value => value.Readable d .columnDefault
  | autoIncrement => d.keyword? Keyword.autoIncrement.text = some .autoIncrement
  | constraint c => c.Readable d
  | notNull | null => True

def Gathered (d : Dialect) : ColumnClause → Prop
  | default value => value.Gathered d .columnDefault
  | autoIncrement => d.keyword? Keyword.autoIncrement.text = some .autoIncrement
  | constraint c => c.Readable d
  | notNull | null => True

theorem Readable.gathered {c : ColumnClause} (h : c.Readable d) : c.Gathered d := by
  cases c with
  | default value => exact Expr.Readable.gathered h
  | _ => exact h

-- The clauses that are printed behind the type of a column.
def ofColumn (c : Column) : List ColumnClause :=
  (if c.notNull then [notNull] else []) ++ c.default.toList.map default ++
    (if c.autoIncrement then [autoIncrement] else [])

theorem ofClauses_ofColumn (c : Column) :
    ColumnDefinition.ofClauses c.name c.dataType (ofColumn c) = ⟨c, []⟩ := by
  rcases c with ⟨name, type, _ | _, _ | e, _ | _⟩ <;> rfl

-- What the clauses make of a column comes from them or was there before.
structure Applied (clauses : List ColumnClause) (column result : Column) : Prop where
  name : result.name = column.name
  dataType : result.dataType = column.dataType
  default : ∀ e ∈ result.default, e ∈ column.default ∨ default e ∈ clauses
  autoIncrement : result.autoIncrement = true →
    column.autoIncrement = true ∨ ColumnClause.autoIncrement ∈ clauses

theorem applied_apply (column : Column) (c : ColumnClause) : Applied [c] column (apply column c) := by
  cases c with
  | default value =>
      refine ⟨rfl, rfl, fun e he => .inr ?_, .inl⟩
      cases he
      exact List.mem_singleton.mpr rfl
  | autoIncrement => exact ⟨rfl, rfl, fun _ => .inl, fun _ => .inr (List.mem_singleton.mpr rfl)⟩
  | _ => exact ⟨rfl, rfl, fun _ => .inl, .inl⟩

theorem Applied.cons {c : ColumnClause} {clauses : List ColumnClause} {column between result : Column}
    (h : Applied [c] column between) (h' : Applied clauses between result) :
    Applied (c :: clauses) column result where
  name := h'.name.trans h.name
  dataType := h'.dataType.trans h.dataType
  default e he := by
    rcases h'.default e he with he | he
    · exact (h.default e he).imp_right fun he => List.mem_cons.mpr (.inl (List.mem_singleton.mp he))
    · exact .inr (List.mem_cons_of_mem c he)
  autoIncrement hauto := by
    rcases h'.autoIncrement hauto with hauto | hauto
    · exact (h.autoIncrement hauto).imp_right
        fun hc => List.mem_cons.mpr (.inl (List.mem_singleton.mp hc))
    · exact .inr (List.mem_cons_of_mem c hauto)

theorem applied_foldl (clauses : List ColumnClause) (column : Column) :
    Applied clauses column (clauses.foldl apply column) := by
  induction clauses generalizing column with
  | nil => exact ⟨rfl, rfl, fun _ => .inl, .inl⟩
  | cons c clauses ih => exact (applied_apply column c).cons (ih (apply column c))

section OfClauses

variable {name : Ident} {type : DataType} {clauses : List ColumnClause}

theorem applied_ofClauses : Applied clauses ⟨name, type, false, none, false⟩
    (ColumnDefinition.ofClauses name type clauses).column :=
  applied_foldl clauses ⟨name, type, false, none, false⟩

theorem gathered_ofClauses (hname : name.Readable d) (htype : type.Readable d)
    (h : ∀ c ∈ clauses, c.Gathered d) :
    (ColumnDefinition.ofClauses name type clauses).column.Gathered d where
  name := by rwa [applied_ofClauses.name]
  dataType := by rwa [applied_ofClauses.dataType]
  default e he := h _ ((applied_ofClauses.default e he).resolve_left (by simp))
  autoIncrement hauto := h _ ((applied_ofClauses.autoIncrement hauto).resolve_left (by simp))

theorem readable_ofClauses (hname : name.Readable d)
    (hstart : startsTableConstraint d (name.face d).token = false) (htype : type.Readable d)
    (h : ∀ c ∈ clauses, c.Readable d) :
    (ColumnDefinition.ofClauses name type clauses).column.Readable d := by
  have hgathered := gathered_ofClauses hname htype fun c hc => (h c hc).gathered
  refine ⟨hgathered.name, ?_, hgathered.dataType, fun e he => ?_, hgathered.autoIncrement⟩
  · rwa [applied_ofClauses.name]
  · exact h _ ((applied_ofClauses.default e he).resolve_left (by simp))

theorem mem_constraints {c : Constraint}
    (h : c ∈ (ColumnDefinition.ofClauses name type clauses).constraints) :
    constraint c ∈ clauses := by
  obtain ⟨clause, hclause, hsome⟩ := List.mem_filterMap.mp h
  cases clause with
  | constraint c' =>
      cases hsome
      exact hclause
  | _ => cases hsome

end OfClauses

end Parser.ColumnClause

namespace Parser

theorem keyword?_of_scanned {t : Token} (ht : t.Scanned d) {k : Keyword}
    (hk : t.keyword? = some k) : d.keyword? k.text = some k := by
  have hkind : t.kind = .keyword k := by
    unfold Token.keyword? at hk
    split at hk
    · cases hk
      assumption
    · cases hk
  exact keyword?_of_genuine (ht (by simp [hkind]) (by simp [hkind])) hkind

theorem yields_expr {place : ExprPlace} {c : Context} :
    Yields d (expr place c) (·.Gathered d place) := by
  intro s e s' hs h
  obtain ⟨body, t, hbody, he⟩ := bind_eq_ok.mp h
  cases he
  obtain ⟨hscanned, hgathered⟩ := gathered_exprOf hs hbody
  exact ⟨hgathered, hscanned⟩

theorem yields_expr_default {c : Context} :
    YieldsOrEnds d (expr .columnDefault c) (·.Readable d .columnDefault) := by
  intro s e s' hs h
  obtain ⟨body, t, hbody, he⟩ := bind_eq_ok.mp h
  cases he
  obtain ⟨hscanned, hreadable⟩ := readable_exprOf hs hbody
  exact ⟨hreadable.imp_right fun h => h.2, hscanned⟩

section Clauses

variable {s s' : Cursor} {o : Option ColumnClause}

-- A clause is readable, unless it is a default that was cut off.
structure ColumnClause.Found (d : Dialect) (o : Option ColumnClause) (s : Cursor) : Prop where
  gathered : ∀ c ∈ o, c.Gathered d
  readable : (∀ c ∈ o, c.Readable d) ∨ s.AtEnd
  scanned : s.Scanned d

theorem found_of_yieldsAt {p : Parser (Option ColumnClause)} (hs : s.Scanned d)
    (h : EStateM.run p s = .ok o s')
    (hp : YieldsAt d s.current p fun o => ∀ c ∈ o, c.Readable d) : ColumnClause.Found d o s' := by
  obtain ⟨hreadable, hs'⟩ := hp s o s' hs rfl h
  exact ⟨fun c hc => (hreadable c hc).gathered, .inl hreadable, hs'⟩

theorem found_of_columnAttribute? (hs : s.Scanned d) (h : columnAttribute? s = .ok o s') :
    ColumnClause.Found d o s' := by
  obtain ⟨t, u, ht, h⟩ := bind_eq_ok.mp h
  cases ht
  replace h : EStateM.run _ s = .ok o s' := h
  split at h
  · exact found_of_yieldsAt hs h (.advance (.bind .expectKeyword fun _ _ =>
      .pure (by simp [ColumnClause.Readable])))
  · exact found_of_yieldsAt hs h (.advance (.pure (by simp [ColumnClause.Readable])))
  · obtain ⟨t, u, ht, h⟩ := bind_eq_ok.mp h
    cases ht
    obtain ⟨e, v, he, h⟩ := bind_eq_ok.mp h
    cases h
    obtain ⟨hgathered, -⟩ := yields_expr _ e _ hs.next he
    obtain ⟨hreadable, hs'⟩ := yields_expr_default _ e _ hs.next he
    refine ⟨by simpa [ColumnClause.Gathered] using hgathered, hreadable.imp_left ?_, hs'⟩
    simp [ColumnClause.Readable]
  · rename_i hk
    have hkeyword := keyword?_of_scanned hs.current hk
    exact found_of_yieldsAt hs h
      (.advance (.pure (by simpa [ColumnClause.Readable] using hkeyword)))
  · exact found_of_yieldsAt hs h (.of (.pure (by simp)))

theorem found_of_columnClause? {table : ObjectName} {column : Ident} (hcolumn : column.Readable d)
    (hs : s.Scanned d) (h : columnClause? d table column s = .ok o s') :
    ColumnClause.Found d o s' := by
  have hkey : ColumnIdent.ListReadable d [.ascending column] :=
    ⟨by simp, by simpa [ColumnIdent.ascending] using hcolumn⟩
  have hconstraint : ∀ c : Constraint, c.Readable d →
      Yields d (pure (some (.constraint c))) fun o => ∀ c ∈ o, ColumnClause.Readable d c :=
    fun c hc => .pure (by simpa [ColumnClause.Readable] using hc)
  obtain ⟨name, u, hname, h⟩ := bind_eq_ok.mp h
  obtain ⟨hname, hu⟩ := yields_constraintName? s name u hs hname
  obtain ⟨t, v, ht, h⟩ := bind_eq_ok.mp h
  cases ht
  replace h : EStateM.run _ u = .ok o s' := h
  split at h
  · exact found_of_yieldsAt hu h (.advance (.bind .expectKeyword fun _ _ =>
      hconstraint _ ⟨readable_getD hname _, hkey⟩))
  · exact found_of_yieldsAt hu h (.advance (.bind .consume fun _ _ =>
      hconstraint _ (readable_uniqueConstraint hname hkey)))
  · exact found_of_yieldsAt hu h (.of (.bind (yields_foreignKey hname hkey) hconstraint))
  · exact found_of_yieldsAt hu h (.advance (.bind yields_checkBody fun body hbody =>
      hconstraint _ ⟨readable_getD hname _, hbody⟩))
  · split at h
    · cases h
    · exact found_of_columnAttribute? hu h

end Clauses

theorem yields_columnClause? {table : ObjectName} {column : Ident} (hcolumn : column.Readable d) :
    YieldsOrEnds d (columnClause? d table column) fun o => ∀ c ∈ o, c.Readable d := by
  intro s o s' hs h
  have hfound := found_of_columnClause? hcolumn hs h
  exact ⟨hfound.readable, hfound.scanned⟩

theorem gathers_columnClause? {table : ObjectName} {column : Ident} (hcolumn : column.Readable d) :
    Yields d (columnClause? d table column) fun o => ∀ c ∈ o, c.Gathered d := by
  intro s o s' hs h
  have hfound := found_of_columnClause? hcolumn hs h
  exact ⟨hfound.gathered, hfound.scanned⟩

theorem keyword?_of_atEnd {s : Cursor} (h : s.AtEnd) : s.current.keyword? = none := by
  unfold Token.keyword?
  rcases h with h | h <;> rw [h]

theorem columnClause?_of_atEnd {table : ObjectName} {column : Ident} {s : Cursor} (h : s.AtEnd) :
    columnClause? d table column s = .ok none s := by
  have hattribute : columnAttribute? s = .ok none s := by
    refine bind_eq_ok.mpr ⟨s.current, s, rfl, ?_⟩
    rw [keyword?_of_atEnd h]
    rfl
  refine bind_eq_ok.mpr ⟨none, s, ?_, bind_eq_ok.mpr ⟨s.current, s, rfl, ?_⟩⟩
  · exact bind_eq_ok.mpr ⟨false, s, YieldsOrEnds.consume_of_atEnd (by simp) h, rfl⟩
  · rw [keyword?_of_atEnd h]
    exact hattribute

theorem yields_columnDefinition {table : ObjectName} {t : Token} (ht : t.Scanned d)
    (hstart : startsTableConstraint d t = false) :
    YieldsOrEndsAt d t (columnDefinition d table) fun definition =>
      definition.column.Readable d ∧ ∀ c ∈ definition.constraints, c.Readable d := by
  refine .bind (yieldsAt_ident ht) fun name hname => .bind DataType.yields_dataType fun type htype =>
    .map (.many (yields_columnClause? hname.1) fun s hs => columnClause?_of_atEnd hs) ?_
  intro clauses hclauses
  refine ⟨ColumnClause.readable_ofClauses hname.1 ?_ htype hclauses,
    fun c hc => hclauses _ (ColumnClause.mem_constraints hc)⟩
  rw [hname.2]
  exact hstart

theorem gathers_columnDefinition {table : ObjectName} :
    Yields d (columnDefinition d table) fun definition =>
      definition.column.Gathered d ∧ ∀ c ∈ definition.constraints, c.Readable d :=
  .bind yields_ident fun _ hname => .bind DataType.yields_dataType fun _ htype =>
    .bind (.many (gathers_columnClause? hname)) fun _ hclauses =>
      .pure ⟨ColumnClause.gathered_ofClauses hname htype hclauses,
        fun _ hc => hclauses _ (ColumnClause.mem_constraints hc)⟩

end Parser

namespace Parser.ColumnClause

def faces (d : Dialect) : ColumnClause → List Face
  | notNull => [.keyword .not, .keyword .null]
  | null => [.keyword .null]
  | default value => .keyword .default :: value.faces d
  | autoIncrement => [.keyword .autoIncrement]
  | constraint c => c.faces d

def text : ColumnClause → String
  | notNull => " NOT NULL"
  | null => " NULL"
  | default value => " DEFAULT " ++ value.sql
  | autoIncrement => " AUTO_INCREMENT"
  | constraint c => " " ++ c.sql

theorem steps_attribute (table : ObjectName) (column : Ident) {X Y : List Face} {f : Face}
    {k : Keyword} {c : ColumnClause} (hf : f.kind = .keyword k)
    (hk : k ∈ [Keyword.not, .null, .default, .autoIncrement])
    (h : Steps columnAttribute? (f :: X) (some c) Y) :
    Steps (columnClause? d table column) (f :: X) (some c) Y := by
  simp only [List.mem_cons, List.not_mem_nil, or_false] at hk
  refine .bind (steps_noConstraintName ?_) (.current fun t ht => ?_)
  · rcases hk with rfl | rfl | rfl | rfl <;> simp [hf]
  · rw [keyword?_of_face ht hf]
    rcases hk with rfl | rfl | rfl | rfl <;> exact h

theorem steps_notNull (Y : List Face) : Steps columnAttribute?
    (.keyword .not :: .keyword .null :: Y) (some notNull) Y := by
  refine .current fun t ht => ?_
  rw [keyword?_of_face ht rfl]
  exact .advance fun _ _ => .bind (.expectKeyword rfl) (.pure _ Y)

theorem steps_default {value : Expr} (h : value.Bounded d .columnDefault) {Y : List Face}
    (hY : Ending .columnDefault Y) : Steps columnAttribute?
      (.keyword .default :: (value.faces d ++ Y)) (some (default (value.reread d))) Y := by
  refine .current fun t ht => ?_
  rw [keyword?_of_face ht rfl]
  exact .advance fun _ _ => .bind (steps_bounded h _ hY) (.pure _ Y)

theorem steps_autoIncrement (Y : List Face) :
    Steps columnAttribute? (.keyword .autoIncrement :: Y) (some autoIncrement) Y := by
  refine .current fun t ht => ?_
  rw [keyword?_of_face ht rfl]
  exact .advance fun _ _ => .pure _ Y

theorem steps_end {table : ObjectName} {column : Ident} {Y : List Face}
    (hY : Face.EndsEntry Y) : Steps (columnClause? d table column) Y none Y := by
  have hnone : ∀ t : Token, t.face = Face.first Y → t.keyword? = none := by
    intro t ht
    have hkind : t.kind = (Face.first Y).kind := congrArg Face.kind ht
    rw [Token.keyword?, hkind]
    simp only [Face.EndsEntry, List.mem_cons, List.not_mem_nil, or_false] at hY
    rcases hY with h | h | h <;> rw [h]
  refine .bind (steps_noConstraintName (hY.ne (by simp))) (.current fun t ht => ?_)
  rw [hnone t ht]
  refine .current fun t ht => ?_
  rw [hnone t ht]
  exact .pure none Y

end Parser.ColumnClause

namespace Column

def faces (d : Dialect) (c : Column) : List Face :=
  c.name.face d :: (c.dataType.faces d ++ (ColumnClause.ofColumn c).flatMap (ColumnClause.faces d))

variable {c : Column}

theorem Bounded.prints_clauses (h : c.Bounded d) (hs : c.Spaced d) :
    Prints d (String.join ((ColumnClause.ofColumn c).map ColumnClause.text))
        ((ColumnClause.ofColumn c).flatMap (ColumnClause.faces d)) ∧
      Separates (String.join ((ColumnClause.ofColumn c).map ColumnClause.text)) := by
  have hnotNull : ColumnClause.notNull.text = " " ++ phrase [.not, .null] := by decide
  have hautoText : ColumnClause.autoIncrement.text = " " ++ Keyword.autoIncrement.text := by decide
  refine Prints.join fun clause hclause => ?_
  simp only [ColumnClause.ofColumn, List.mem_append, List.mem_map, Option.mem_toList] at hclause
  rcases hclause with (hmem | ⟨e, he, rfl⟩) | hmem
  · split at hmem
    · obtain rfl := List.mem_singleton.mp hmem
      rw [hnotNull]
      exact ⟨(Prints.commonPhrase [.not, .null] (by decide)).space, separates_space _⟩
    · cases hmem
  · exact Prints.spacedLead " DEFAULT " [.default] rfl (by decide) ((h.default e he).prints (hs e he))
  · split at hmem
    · rename_i hauto
      obtain rfl := List.mem_singleton.mp hmem
      rw [hautoText]
      exact ⟨(Prints.keyword (h.autoIncrement hauto)).space, separates_space _⟩
    · cases hmem

theorem Readable.prints (h : c.Readable d) (hs : c.Spaced d) : Prints d c.sql (c.faces d) := by
  obtain ⟨hclauses, hbehind⟩ := h.bounded.prints_clauses hs
  have htype := (h.dataType.prints.append hclauses hbehind).space
  have hall := h.name.prints.append htype (separates_space _)
  have htext : c.sql = c.name.raw ++ (" " ++ (c.dataType.sql ++
      String.join ((ColumnClause.ofColumn c).map ColumnClause.text))) := by
    rcases c with ⟨name, type, _ | _, _ | e, _ | _⟩ <;>
      simp [sql, spelled, ColumnClause.ofColumn, ColumnClause.text, Expr.sql, String.append_assoc]
  rw [htext]
  exact hall

theorem ending_autoIncrement {Y : List Face} (hY : Face.EndsEntry Y) (isLast : Bool) :
    Ending .columnDefault ((if isLast then [Face.keyword .autoIncrement] else []) ++ Y) := by
  cases isLast with
  | true => simp [Ending, Face.keyword]
  | false =>
      simp only [Face.EndsEntry, List.mem_cons, List.not_mem_nil, or_false] at hY
      rcases hY with h | h | h <;> simp [Ending, h]

theorem Bounded.steps_clauses (h : c.Bounded d) (table : ObjectName) (column : Ident)
    {Y : List Face} (hY : Face.EndsEntry Y) :
    Steps (many (columnClause? d table column))
      ((ColumnClause.ofColumn c).flatMap (ColumnClause.faces d) ++ Y)
      (ColumnClause.ofColumn (c.reread d)) Y := by
  obtain ⟨name, type, notNull, default, autoIncrement⟩ := c
  have hend : Steps (many (columnClause? d table column)) Y [] Y :=
    .many_nil (ColumnClause.steps_end hY)
  have hauto : Steps (many (columnClause? d table column))
      ((if autoIncrement then [Face.keyword .autoIncrement] else []) ++ Y)
      (if autoIncrement then [ColumnClause.autoIncrement] else []) Y := by
    cases autoIncrement with
    | true =>
        exact .many_cons (ColumnClause.steps_attribute table column rfl (by simp)
          (ColumnClause.steps_autoIncrement Y)) (by simp) hend
    | false => exact hend
  have hdefault : Steps (many (columnClause? d table column))
      (default.toList.flatMap (fun e => Face.keyword .default :: e.faces d) ++
        ((if autoIncrement then [Face.keyword .autoIncrement] else []) ++ Y))
      ((default.map (Expr.reread d)).toList.map ColumnClause.default ++
        if autoIncrement then [ColumnClause.autoIncrement] else []) Y := by
    cases default with
    | none => exact hauto
    | some e =>
        have hstep := ColumnClause.steps_default (h.default e rfl)
          (ending_autoIncrement hY autoIncrement)
        have hclause := ColumnClause.steps_attribute (d := d) table column rfl (by simp) hstep
        have hshorter : ∀ Z : List Face,
            Z.length < (Face.keyword .default :: e.faces d ++ Z).length := by
          intro Z
          rw [List.cons_append, List.length_cons, List.length_append]
          omega
        simpa using Steps.many_cons hclause (hshorter _) hauto
  have hall : Steps (many (columnClause? d table column))
      ((if notNull then [Face.keyword .not, .keyword .null] else []) ++
        (default.toList.flatMap (fun e => Face.keyword .default :: e.faces d) ++
          ((if autoIncrement then [Face.keyword .autoIncrement] else []) ++ Y)))
      ((if notNull then [ColumnClause.notNull] else []) ++
        ((default.map (Expr.reread d)).toList.map ColumnClause.default ++
          if autoIncrement then [ColumnClause.autoIncrement] else [])) Y := by
    cases notNull with
    | true =>
        have hshorter : ∀ Z : List Face,
            Z.length < ([Face.keyword .not, .keyword .null] ++ Z).length := by
          intro Z
          rw [List.length_append]
          exact Nat.lt_add_of_pos_left Nat.two_pos
        exact .many_cons (ColumnClause.steps_attribute table column rfl (by simp)
          (ColumnClause.steps_notNull _)) (hshorter _) hdefault
    | false => exact hdefault
  cases notNull <;> cases default <;> cases autoIncrement <;>
    simpa [ColumnClause.ofColumn, ColumnClause.faces, reread] using hall

theorem follows_clauses {Y : List Face} (hY : Face.EndsEntry Y) :
    DataType.Follows ((ColumnClause.ofColumn c).flatMap (ColumnClause.faces d) ++ Y) := by
  rcases c with ⟨name, type, _ | _, _ | e, _ | _⟩
  case false.none.false =>
    simp only [Face.EndsEntry, List.mem_cons, List.not_mem_nil, or_false] at hY
    rcases hY with h | h | h <;> simp [DataType.Follows, ColumnClause.ofColumn, h]
  all_goals simp [DataType.Follows, ColumnClause.ofColumn, ColumnClause.faces, Face.keyword]

theorem Readable.steps (h : c.Readable d) {table : ObjectName} {Y : List Face}
    (hY : Face.EndsEntry Y) :
    Steps (columnDefinition d table) (c.faces d ++ Y) ⟨c, []⟩ Y := by
  have hclauses := h.bounded.steps_clauses table c.name hY
  rw [h.reread_eq] at hclauses
  rw [faces, List.cons_append, List.append_assoc]
  refine .bind (steps_ident h.name _ _) (.bind (h.dataType.steps (follows_clauses hY))
    (.bind hclauses ?_))
  rw [ColumnClause.ofClauses_ofColumn]
  exact .pure _ Y

end Column

end SchemaDiff
