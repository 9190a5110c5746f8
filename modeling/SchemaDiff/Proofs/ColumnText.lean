import SchemaDiff.Proofs.ClauseText
import SchemaDiff.Proofs.Table

namespace SchemaDiff.Parser

variable {d : Dialect} {table : ObjectName}

namespace ColumnClause

def isDefault : ColumnClause → Bool
  | default _ => true
  | _ => false

-- `NULL` or `NOT NULL`.
def isNullness : ColumnClause → Bool
  | notNull | null => true
  | _ => false

theorem apply_comm {a b : ColumnClause} (hdefault : a.isDefault = true → b.isDefault = true → a = b)
    (hnullness : a.isNullness = true → b.isNullness = true → a = b) (column : Column) :
    apply (apply column a) b = apply (apply column b) a := by
  cases a <;> cases b <;> simp_all [apply, isDefault, isNullness]

theorem apply_of_constraint? {c : ColumnClause} (h : c.constraint?.isSome = true) (column : Column) :
    apply column c = column := by
  cases c <;> simp_all [apply, constraint?]

end ColumnClause

theorem eq_of_countP_le_one {α : Type} {p : α → Bool} {as : List α} {a b : α} (h : as.countP p ≤ 1)
    (ha : a ∈ as) (hb : b ∈ as) (hpa : p a = true) (hpb : p b = true) : a = b := by
  have ha : a ∈ as.filter p := List.mem_filter.mpr ⟨ha, hpa⟩
  have hb : b ∈ as.filter p := List.mem_filter.mpr ⟨hb, hpb⟩
  rw [List.countP_eq_length_filter] at h
  cases hfilter : as.filter p with
  | nil => simp [hfilter] at ha
  | cons x rest =>
      obtain rfl : rest = [] := by
        rw [hfilter, List.length_cons] at h
        exact List.eq_nil_of_length_eq_zero (by omega)
      rw [hfilter, List.mem_singleton] at ha hb
      rw [ha, hb]

-- A column definition as it is written, with what is read from its tokens.
structure ColumnText where
  name : Face
  ident : Ident
  type : List Face
  dataType : DataType
  clauses : Parts ColumnClause

namespace ColumnText

def faces (c : ColumnText) : List Face :=
  c.name :: (c.type ++ c.clauses.faces)

def definition (c : ColumnText) : ColumnDefinition :=
  .ofClauses c.ident c.dataType c.clauses.values

-- The tokens are read as an element of the table in front of the rest.
structure Reads (c : ColumnText) (d : Dialect) (table : ObjectName) (rest : List Face) : Prop where
  ident : identOf? c.name.token = some c.ident
  isColumn : startsTableConstraint d c.name.token = false
  dataType : Steps (Parser.dataType d) (c.type ++ (c.clauses.faces ++ rest)) c.dataType
    (c.clauses.faces ++ rest)
  clauses : c.clauses.Read (columnClause? d table c.ident) rest
  ends : EndsElement rest

-- No two clauses contradict each other, and where a default ends does not depend on what follows.
structure Settled (c : ColumnText) : Prop where
  default : c.clauses.values.countP ColumnClause.isDefault ≤ 1
  nullness : c.clauses.values.countP ColumnClause.isNullness ≤ 1
  ending : ∀ part ∈ c.clauses, ∀ value, part.2 = .default value → ¬EndsInNot part.1

-- No check is without a name.
def NamesChecks (c : ColumnText) : Prop :=
  ∀ part ∈ c.clauses, (Face.first part.1).kind ≠ .keyword .check

def constraintClauses (c : ColumnText) : Parts ColumnClause :=
  c.clauses.filter (·.2.constraint?.isSome)

-- The definition without its constraints.
def plain (c : ColumnText) : ColumnText :=
  { c with clauses := c.clauses.filter (·.2.constraint?.isNone) }

-- The constraints of the definition as constraints of the table over its column.
def outside (c : ColumnText) : List Face :=
  c.constraintClauses.flatMap fun part => .symbol .comma :: restated (columnFaces c.name) part.1

-- What holds of the tokens wherever they stand.
structure Stable (c : ColumnText) (d : Dialect) (table : ObjectName) : Prop where
  ident : identOf? c.name.token = some c.ident
  isColumn : startsTableConstraint d c.name.token = false
  type_ne_nil : c.type ≠ []
  dataType : ∀ Y, BehindClause Y → Steps (Parser.dataType d) (c.type ++ Y) c.dataType Y
  clauses : ∀ part ∈ c.clauses, IsClause d table c.ident part.1 part.2

variable {c : ColumnText} {clauses : Parts ColumnClause}

section Values

theorem column_perm (hc : c.Settled) (h : clauses.Perm c.clauses) :
    ({ c with clauses := clauses } : ColumnText).definition.column = c.definition.column := by
  refine (h.map Prod.snd).foldl_eq' (fun a ha b hb column => ?_) _
  have ha : a ∈ c.clauses.values := (h.map Prod.snd).mem_iff.mp ha
  have hb : b ∈ c.clauses.values := (h.map Prod.snd).mem_iff.mp hb
  exact ColumnClause.apply_comm (fun hda hdb => (eq_of_countP_le_one hc.default ha hb hda hdb))
    (fun hna hnb => (eq_of_countP_le_one hc.nullness ha hb hna hnb)) column

theorem constraints_perm (h : clauses.Perm c.clauses) :
    ({ c with clauses := clauses } : ColumnText).definition.constraints.Perm c.definition.constraints :=
  (h.map Prod.snd).filterMap _

theorem foldl_apply_plain (parts : Parts ColumnClause) (column : Column) :
    (Parts.values (parts.filter (·.2.constraint?.isNone))).foldl ColumnClause.apply column =
      parts.values.foldl ColumnClause.apply column := by
  induction parts generalizing column with
  | nil => rfl
  | cons part parts ih =>
      rw [List.filter_cons]
      split
      · exact ih _
      · rename_i hpart
        have hsome : part.2.constraint?.isSome = true := by
          rwa [Bool.not_eq_true, Option.isNone_eq_false_iff] at hpart
        rw [Parts.values, Parts.values, List.map_cons, List.foldl_cons,
          ColumnClause.apply_of_constraint? hsome]
        exact ih column

theorem definition_plain (c : ColumnText) : c.plain.definition = ⟨c.definition.column, []⟩ := by
  have hnone : c.plain.clauses.values.filterMap ColumnClause.constraint? = [] := by
    rw [List.filterMap_eq_nil_iff]
    intro clause hclause
    obtain ⟨part, hpart, rfl⟩ := List.mem_map.mp hclause
    simpa using (List.mem_filter.mp hpart).2
  rw [definition, ColumnDefinition.ofClauses, hnone]
  exact congrArg (ColumnDefinition.mk · []) (foldl_apply_plain c.clauses _)

theorem constraints_constraintClauses (c : ColumnText) :
    c.constraintClauses.values.filterMap ColumnClause.constraint? = c.definition.constraints := by
  show List.filterMap _ (List.map _ (List.filter _ _)) = List.filterMap _ (List.map _ _)
  rw [List.filterMap_map, List.filterMap_map, List.filterMap_filter]
  refine List.filterMap_congr fun part _ => ?_
  dsimp only [Function.comp]
  cases part.2.constraint? <;> rfl

end Values

section Readings

theorem Stable.of_subset (h : c.Stable d table) (hclauses : clauses ⊆ c.clauses) :
    ({ c with clauses := clauses } : ColumnText).Stable d table :=
  ⟨h.ident, h.isColumn, h.type_ne_nil, h.dataType, fun part hpart => h.clauses part (hclauses hpart)⟩

theorem Reads.stable {rest : List Face} (h : c.Reads d table rest) : c.Stable d table := by
  have hdataType := Rereads.dataType (d := d) (Exchange.parted_kinds (List.Subset.refl behindPart))
  exact ⟨h.ident, h.isColumn, hdataType.ne_nil h.dataType,
    fun Y hY => hdataType.again h.dataType (.inr hY.1), h.clauses.isClause h.ends.behindClause⟩

theorem steps_clauses {column : Ident} {parts : Parts ColumnClause}
    (h : ∀ part ∈ parts, IsClause d table column part.1 part.2)
    (hending : ∀ part ∈ parts, ∀ value, part.2 = .default value → ¬EndsInNot part.1) {Y : List Face}
    (hY : EndsElement Y) :
    Steps (many (columnClause? d table column)) (parts.faces ++ Y) parts.values Y := by
  induction parts with
  | nil => exact .many_nil (ColumnClause.steps_end hY.endsEntry)
  | cons part parts ih =>
      rw [List.forall_mem_cons] at h hending
      have hne : part.1 ≠ [] := by
        intro hnil
        have hbegins := (h.1.begins []).1
        simp [hnil, Face.first, behindPart] at hbegins
      rw [Parts.faces, List.flatMap_cons, List.append_assoc]
      exact .many_cons (h.1.steps hending.1 _ (behindClause_faces h.2 hY.behindClause)) (length_lt hne)
        (ih h.2 hending.2)

theorem Stable.steps (h : c.Stable d table)
    (hending : ∀ part ∈ c.clauses, ∀ value, part.2 = .default value → ¬EndsInNot part.1)
    {Y : List Face} (hY : EndsElement Y) :
    Steps (tableElement d table) (c.faces ++ Y) (.column c.definition) Y := by
  refine .current fun t ht => ?_
  have hstarts : startsTableConstraint d t.face.token = false := ht ▸ h.isColumn
  replace hstarts : startsTableConstraint d t = false := hstarts
  rw [hstarts, faces, List.cons_append, List.append_assoc]
  have htype := h.dataType _ (behindClause_faces h.clauses hY.behindClause)
  exact .bind (.bind (steps_identOf h.ident)
    (.bind htype (.bind (steps_clauses h.clauses hending hY) (.pure _ Y)))) (.pure _ Y)

theorem endsElement_commas (parts : Parts ColumnClause) (g : List Face × ColumnClause → List Face)
    {Y : List Face} (hY : EndsElement Y) :
    EndsElement ((parts.flatMap fun part => .symbol .comma :: g part) ++ Y) := by
  cases parts with
  | nil => exact hY
  | cons part parts => exact .inl rfl

-- The constraints outside are read as elements of their own.
theorem steps_outside {f : Face} {column : Ident} (hf : identOf? f.token = some column)
    {parts : Parts ColumnClause} (h : ∀ part ∈ parts, IsClause d table column part.1 part.2)
    (hconstraint : ∀ part ∈ parts, part.2.constraint?.isSome = true)
    (hnamed : ∀ part ∈ parts, (Face.first part.1).kind ≠ .keyword .check) {Y Z : List Face}
    {after : List TableElement} (hY : EndsElement Y)
    (hafter : Steps (many (commaItem? (tableElement d table))) Y after Z) :
    Steps (many (commaItem? (tableElement d table)))
      ((parts.flatMap fun part => .symbol .comma :: restated (columnFaces f) part.1) ++ Y)
      ((parts.values.filterMap ColumnClause.constraint?).map .constraint ++ after) Z := by
  induction parts with
  | nil => exact hafter
  | cons part parts ih =>
      rw [List.forall_mem_cons] at h hconstraint hnamed
      obtain ⟨r, clause⟩ := part
      obtain ⟨constraint, hclause⟩ : ∃ constraint, clause = .constraint constraint := by
        cases clause <;> simp_all [ColumnClause.constraint?]
      obtain ⟨hstarts, hsteps⟩ := h.1.restated constraint hclause hnamed.1 f hf
      have hrest := ih h.2 hconstraint.2 hnamed.2
      have hends := endsElement_commas parts (fun part => restated (columnFaces f) part.1) hY
      generalize hbehind : (parts.flatMap fun part => Face.symbol .comma ::
        restated (columnFaces f) part.1) ++ Y = behind at hrest hends
      have helement : Steps (tableElement d table) (restated (columnFaces f) r ++ behind)
          (.constraint constraint) behind := by
        refine .current fun t ht => ?_
        have hstarts : startsTableConstraint d t.face.token = true := ht ▸ hstarts behind
        replace hstarts : startsTableConstraint d t = true := hstarts
        rw [if_pos hstarts]
        exact .bind (hsteps behind hends) (.pure _ behind)
      rw [List.flatMap_cons, List.append_assoc, hbehind, hclause]
      exact .many_cons (.commaItem? rfl helement) (length_lt (by simp)) hrest

theorem countP_values_le {column : Ident} {parts : Parts ColumnClause} {q : ColumnClause → Bool}
    {k : Keyword} (h : ∀ part ∈ parts, IsClause d table column part.1 part.2)
    (hq : ∀ clause, q clause = true → clause.mark? = some k) :
    parts.values.countP q ≤ parts.faces.countP (·.kind == .keyword k) := by
  induction parts with
  | nil => exact Nat.le_refl 0
  | cons part parts ih =>
      rw [List.forall_mem_cons] at h
      have hrest := ih h.2
      rw [Parts.values, List.map_cons, List.countP_cons, Parts.faces, List.flatMap_cons,
        List.countP_append]
      split
      · rename_i hpart
        obtain ⟨f, hf, hk⟩ := h.1.marked k (hq _ hpart)
        have hpos : 0 < part.1.countP (·.kind == .keyword k) :=
          List.countP_pos_iff.mpr ⟨f, hf, by simp [hk]⟩
        rw [Parts.values, Parts.faces] at hrest
        omega
      · exact Nat.le_add_left_of_le hrest

theorem sublist_clauses (c : ColumnText) : c.clauses.faces.Sublist c.faces :=
  (List.sublist_append_right _ _).trans (List.sublist_cons_self _ _)

-- The tokens alone can show that the definition is settled.
theorem Stable.settled (h : c.Stable d table)
    (hdefault : c.faces.countP (·.kind == .keyword .default) ≤ 1)
    (hnull : c.faces.countP (·.kind == .keyword .null) ≤ 1)
    (hnot : c.faces.countP (·.kind == .keyword .not) = 0) : c.Settled := by
  have hclauses := c.sublist_clauses
  refine ⟨?_, ?_, fun part hpart value _ hends => ?_⟩
  · refine (countP_values_le h.clauses fun clause hclause => ?_).trans
      ((hclauses.countP_le).trans hdefault)
    cases clause <;> simp_all [ColumnClause.isDefault, ColumnClause.mark?]
  · refine (countP_values_le h.clauses fun clause hclause => ?_).trans
      ((hclauses.countP_le).trans hnull)
    cases clause <;> simp_all [ColumnClause.isNullness, ColumnClause.mark?]
  · obtain ⟨f, hf, hk⟩ := Option.map_eq_some_iff.mp hends
    have hmem : f ∈ c.faces :=
      hclauses.subset (List.mem_flatMap.mpr ⟨part, hpart, List.mem_of_getLast? hf⟩)
    exact List.countP_eq_zero.mp hnot f hmem (by simp [hk])

theorem namesChecks (h : c.faces.countP (·.kind == .keyword .check) = 0) : c.NamesChecks := by
  rintro ⟨r, clause⟩ hpart hcheck
  cases r with
  | nil => simp [Face.first] at hcheck
  | cons f r =>
      have hmem : f ∈ c.faces :=
        c.sublist_clauses.subset (List.mem_flatMap.mpr ⟨_, hpart, List.mem_cons_self⟩)
      exact List.countP_eq_zero.mp h f hmem (beq_iff_eq.mpr hcheck)

end Readings

section Existence

variable {s u : Cursor} {definition : ColumnDefinition}

theorem exists_columnText (h : columnDefinition d table s = .ok definition u)
    (hstarts : startsTableConstraint d s.current = false) (hend : EndsElement u.faces) :
    ∃ c : ColumnText, c.definition = definition ∧ s.faces = c.faces ++ u.faces ∧
      c.Reads d table u.faces := by
  obtain ⟨ident, v, hident, hrest⟩ := bind_eq_ok.mp h
  obtain ⟨type, w, htype, hrest⟩ := bind_eq_ok.mp hrest
  obtain ⟨clauses, x, hclauses, hpure⟩ := bind_eq_ok.mp hrest
  cases hpure
  obtain ⟨f, hf, hs⟩ := ident_eq_ok hident
  obtain ⟨r, hr, -, hsteps⟩ := Rereads.dataType Exchange.parted_pair v type w htype
  obtain ⟨parts, hvalues, hparts, hread⟩ := exists_clauses hclauses hend.behindClause.not_atEnd
  have hcolumn : startsTableConstraint d f.token = false := by
    have hface : s.current.face = f := by rw [s.face_current, hs, Face.first_cons]
    rw [← hface]
    exact hstarts
  refine ⟨⟨f, ident, r, type, parts⟩, by rw [definition, hvalues], ?_, hf, hcolumn, ?_, hread, hend⟩
  · rw [hs, hr, hparts, faces]
    simp
  · dsimp only
    rw [← hparts]
    exact hsteps _ (Exchange.pair_refl _)

end Existence

end ColumnText

end SchemaDiff.Parser
