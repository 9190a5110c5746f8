import SchemaDiff.Proofs.ColumnText
import SchemaDiff.Proofs.Splitting

namespace SchemaDiff

open SchemaDiff.Parser

variable {d : Dialect}

-- The table with other elements in its body.
def CreateTable.ofElements (t : CreateTable) (elements : List TableElement) : CreateTable :=
  { t with
    columns := (elements.filterMap TableElement.column?).map
      (forceKeysNotNull (elements.flatMap TableElement.constraints))
    constraints := elements.flatMap TableElement.constraints }

section Contents

variable {before after : List TableElement}

theorem forceKeysNotNull_perm {constraints constraints' : List Constraint}
    (h : constraints.Perm constraints') :
    forceKeysNotNull constraints = forceKeysNotNull constraints' := by
  funext column
  unfold forceKeysNotNull
  dsimp only
  rw [(h.flatMap_right _).any_eq]

theorem CreateTable.ofElements_perm (t : CreateTable) (before after : List TableElement)
    {definition definition' : ColumnDefinition}
    (hcolumn : definition'.column = definition.column)
    (hconstraints : definition'.constraints.Perm definition.constraints) :
    t.ofElements (before ++ .column definition' :: after) =
      { t.ofElements (before ++ .column definition :: after) with
        constraints := before.flatMap TableElement.constraints ++
          (definition'.constraints ++ after.flatMap TableElement.constraints) } := by
  have hforced : forceKeysNotNull (before.flatMap TableElement.constraints ++
        (definition'.constraints ++ after.flatMap TableElement.constraints)) =
      forceKeysNotNull (before.flatMap TableElement.constraints ++
        (definition.constraints ++ after.flatMap TableElement.constraints)) :=
    forceKeysNotNull_perm ((hconstraints.append_right _).append_left _)
  simp only [ofElements, List.filterMap_append, List.filterMap_cons, List.flatMap_append,
    List.flatMap_cons, TableElement.column?, TableElement.constraints, hcolumn, hforced]

theorem CreateTable.ofElements_outside (t : CreateTable) (column : Column)
    (constraints : List Constraint) :
    t.ofElements (before ++ .column ⟨column, []⟩ :: (constraints.map .constraint ++ after)) =
      t.ofElements (before ++ .column ⟨column, constraints⟩ :: after) := by
  have hcolumns : (constraints.map TableElement.constraint).filterMap TableElement.column? = [] := by
    simp [List.filterMap_map, TableElement.column?, Function.comp_def]
  have hconstraints : (constraints.map TableElement.constraint).flatMap TableElement.constraints =
      constraints := by
    simp [List.flatMap_map, TableElement.constraints]
  simp only [ofElements, List.filterMap_append, List.filterMap_cons, List.flatMap_append,
    List.flatMap_cons, TableElement.column?, TableElement.constraints, hcolumns, hconstraints,
    List.nil_append]

end Contents

namespace Parser

variable {s u : Cursor}

section Tables

variable {table : ObjectName} {elements before after : List TableElement}

-- Behind an element there is a comma, or the list ends.
theorem endsElement_of_many {f : Face} {X : List Face}
    (h : many (commaItem? (tableElement d table)) s = .ok after u) (hu : u.faces = f :: X)
    (hf : f.kind = .symbol .rightParen) : EndsElement s.faces := by
  have hcurrent : s.current.kind = (Face.first s.faces).kind := congrArg Face.kind s.face_current
  by_cases hcomma : s.current.kind = .symbol .comma
  · exact .inl (hcurrent ▸ hcomma)
  · have hnone : commaItem? (tableElement d table) s = .ok none s :=
      bind_eq_ok.mpr ⟨false, s, consume_eq_false hcomma, rfl⟩
    rw [many, hnone] at h
    cases h
    exact .inr (by rw [hu]; exact hf)

theorem exists_column {elements : List TableElement} {i : Nat}
    (hi : i < (elements.filterMap TableElement.column?).length) :
    ∃ before definition after, elements = before ++ .column definition :: after ∧
      (before.filterMap TableElement.column?).length = i := by
  induction elements generalizing i with
  | nil => simp at hi
  | cons element elements ih =>
      cases element with
      | column definition =>
          cases i with
          | zero => exact ⟨[], definition, elements, rfl, rfl⟩
          | succ i =>
              obtain ⟨before, definition', after, rfl, rfl⟩ := ih (Nat.lt_of_succ_lt_succ hi)
              exact ⟨.column definition :: before, definition', after, rfl, rfl⟩
      | constraint c =>
          obtain ⟨before, definition', after, rfl, rfl⟩ := ih hi
          exact ⟨.constraint c :: before, definition', after, rfl, rfl⟩

theorem tableElements_eq_ok (h : tableElements d table s = .ok elements u) (hne : elements ≠ []) :
    s.current.kind ≠ .symbol .rightParen ∧
      commaSeparated (tableElement d table) s = .ok elements u := by
  obtain ⟨found, t, hfound, hrest⟩ := bind_eq_ok.mp h
  have hcheck : check (.symbol .rightParen) s = .ok (s.current.kind == .symbol .rightParen) s := rfl
  rw [hcheck] at hfound
  cases hfound
  split at hrest
  · cases hrest
    exact absurd rfl hne
  · rename_i hparen
    exact ⟨by simpa using hparen, hrest⟩

-- The body of a table can be read again, and so can its options. Nothing in the body depends on what
-- follows the parenthesis that closes it.
theorem createTable_parts {t : CreateTable} (h : createTable d s = .ok t u) :
    ∃ front v elements w r x, s.faces = front ++ Cursor.faces v ∧
      tableElements d t.name v = .ok elements w ∧ w.faces = r :: Cursor.faces x ∧
      r.kind = .symbol .rightParen ∧ tableOptions d x = .ok t.options u ∧ t = t.ofElements elements ∧
      ∀ X elements' Y options Z, Exchange.pair v.faces X →
        Steps (tableElements d t.name) X elements' (r :: Y) → Steps (tableOptions d) Y options Z →
        Steps (createTable d) (front ++ X) { t.ofElements elements' with options := options } Z := by
  obtain ⟨found, s₁, hfound, hrest₁⟩ := bind_eq_ok.mp h
  obtain ⟨name, s₂, hname, hrest₂⟩ := bind_eq_ok.mp hrest₁
  obtain ⟨elements, s₃, hbody, hrest₃⟩ := bind_eq_ok.mp hrest₂
  obtain ⟨options, s₄, hoptions, hpure⟩ := bind_eq_ok.mp hrest₃
  cases hpure
  obtain ⟨_, b₁, hopen, hrest₄⟩ := bind_eq_ok.mp hbody
  obtain ⟨elements', b₂, helements, hrest₅⟩ := bind_eq_ok.mp hrest₄
  obtain ⟨_, b₃, hclose, hpure⟩ := bind_eq_ok.mp hrest₅
  cases hpure
  obtain ⟨l, hl, hs₂⟩ := expectSymbol_eq_ok hopen
  obtain ⟨r, hr, hb₂⟩ := expectSymbol_eq_ok hclose
  obtain ⟨f₁, hf₁, -, hsteps₁⟩ := Rereads.ifNotExists _ s found s₁ hfound
  obtain ⟨f₂, hf₂, -, hsteps₂⟩ := Rereads.objectName Exchange.parted_pair _ s₁ name s₂ hname
  refine ⟨f₁ ++ (f₂ ++ [l]), b₁, elements, b₂, r, s₃, by rw [hf₁, hf₂, hs₂]; simp, helements, hb₂, hr,
    hoptions, rfl, ?_⟩
  intro X elements' Y options' Z hX hbody' hoptions'
  have happend : f₁ ++ (f₂ ++ [l]) ++ X = f₁ ++ (f₂ ++ l :: X) := by simp
  rw [happend]
  refine .bind (hsteps₁ _ ?_) (.bind (hsteps₂ _ ?_) (.bind (.inParens hl hr hbody')
    (.bind hoptions' (.pure _ _))))
  · rw [hf₂, hs₂]
    exact Exchange.append (Exchange.Extends.cons hX) f₂
  · rw [hs₂]
    exact Exchange.Extends.cons hX

-- The table is read again with another column in the place of one, and with other elements behind it.
theorem createTable_split {t : CreateTable} (h : createTable d s = .ok t u) {i : Nat}
    (hi : i < t.columns.length) :
    ∃ front before definition after v w Z, s.faces = front ++ Cursor.faces v ∧
      tableElement d t.name v = .ok (.column definition) w ∧ EndsElement w.faces ∧
      (before.filterMap TableElement.column?).length = i ∧
      t = t.ofElements (before ++ .column definition :: after) ∧
      Steps (many (commaItem? (tableElement d t.name))) w.faces after Z ∧
      ∀ X Y element' after', Exchange.pair v.faces (X ++ Y) →
        Steps (tableElement d t.name) (X ++ Y) element' Y →
        Steps (many (commaItem? (tableElement d t.name))) Y after' Z →
        Steps (createTable d) (front ++ (X ++ Y)) (t.ofElements (before ++ element' :: after'))
          u.faces := by
  obtain ⟨front, b, elements, b', r, x, hfront, helements, hclose, hr, hoptions, htable, hagain⟩ :=
    createTable_parts h
  have hcolumns : i < (elements.filterMap TableElement.column?).length := by
    rwa [htable, CreateTable.ofElements, List.length_map] at hi
  obtain ⟨before, definition, after, rfl, hindex⟩ := exists_column hcolumns
  obtain ⟨hparen, hlist⟩ := tableElements_eq_ok helements (by simp)
  obtain ⟨f, v, w, hf, helement, hafter, hagain'⟩ := commaSeparated_split (Rereads.tableElement _) hlist
  have hitems := (Rereads.many ((Rereads.tableElement _).commaItem? (Exchange.keeps_pair _))).steps
    hafter (Exchange.pair_refl _)
  refine ⟨front ++ f, before, definition, after, v, w, b'.faces, by rw [hfront, hf, List.append_assoc],
    helement, endsElement_of_many hafter hclose hr, hindex, htable, hitems, ?_⟩
  intro X Y element' after' hX hsteps hrest
  have hpair : Exchange.pair b.faces (f ++ (X ++ Y)) := hf ▸ Exchange.append hX f
  have hbody : Steps (tableElements d t.name) (f ++ (X ++ Y)) (before ++ element' :: after')
      (r :: x.faces) := by
    have hfirst : ((Face.first (f ++ (X ++ Y))).kind == .symbol .rightParen) = false := by
      rw [hpair.1, ← b.face_current]
      exact beq_false_of_ne hparen
    refine .bind (.check _) ?_
    rw [hfirst, ← hclose]
    exact hagain' X Y _ element' after' hX hsteps hrest
  rw [List.append_assoc]
  exact hagain _ _ _ _ _ hpair hbody (Rereads.tableOptions.steps hoptions (Exchange.pair_refl _))

end Tables

end Parser

-- Where a column is written in a text: the tokens around it, and the elements around it in its table.
structure ColumnPlace where
  front : List Face
  text : ColumnText
  behind : List Face
  before : List TableElement
  after : List TableElement

namespace ColumnPlace

-- The text with other tokens at the place.
def faces (p : ColumnPlace) (middle : List Face) : List Face :=
  p.front ++ (middle ++ p.behind)

-- The table with other elements at the place.
def table (p : ColumnPlace) (t : CreateTable) (middle : List TableElement) : CreateTable :=
  t.ofElements (p.before ++ (middle ++ p.after))

-- The column with this index in the table was read from this place of the text.
structure Holds (p : ColumnPlace) (d : Dialect) (x : String) (t : CreateTable) (i : Nat) : Prop where
  faces : (Cursor.ofText d x).faces = p.faces p.text.faces
  reads : p.text.Reads d t.name p.behind
  table : p.table t [.column p.text.definition] = t
  index : (p.before.filterMap TableElement.column?).length = i

variable {x : String} {s₁ s₂ : Script} {t : CreateTable} {i : Nat}

theorem exists_columnPlace (h : Script.parse d x = .ok (s₁ ++ .createTable t :: s₂))
    (hi : i < t.columns.length) :
    ∃ p : ColumnPlace, p.Holds d x t i ∧ ∃ Z,
      Steps (many (commaItem? (tableElement d t.name))) p.behind p.after Z ∧
      ∀ X Y element after' y, Exchange.pair (p.text.faces ++ p.behind) (X ++ Y) →
        Steps (tableElement d t.name) (X ++ Y) element Y →
        Steps (many (commaItem? (tableElement d t.name))) Y after' Z →
        (Cursor.ofText d y).faces = p.front ++ (X ++ Y) →
        Script.parse d y =
          .ok (s₁ ++ .createTable (t.ofElements (p.before ++ element :: after')) :: s₂) := by
  obtain ⟨front, v, w, hfront, hcreated, -, hagain⟩ := parse_split h
  obtain ⟨front', before, definition, after, v', w', Z, hfront', helement, hends, hindex, htable,
    hafter, hagain'⟩ := createTable_split hcreated hi
  obtain ⟨token, v'', htoken, hdefinition⟩ := bind_eq_ok.mp helement
  cases htoken
  split at hdefinition
  · obtain ⟨c, u, -, hpure⟩ := bind_eq_ok.mp hdefinition
    cases hpure
  rename_i hstarts
  obtain ⟨definition', u, hdefinition, hpure⟩ := bind_eq_ok.mp hdefinition
  cases hpure
  obtain ⟨text, rfl, hfaces, hreads⟩ :=
    ColumnText.exists_columnText hdefinition (by simpa using hstarts) hends
  refine ⟨⟨front ++ front', text, w'.faces, before, after⟩, ⟨?_, hreads, htable.symm, hindex⟩,
    Z, hafter, fun X Y element after' y hpair hX hY hy => ?_⟩
  · rw [hfront, hfront', hfaces, faces, List.append_assoc]
  · rw [← hfaces] at hpair
    exact hagain _ _ y (hagain' X Y element after' hpair hX hY) (by rw [hy, List.append_assoc])

theorem Holds.sublist {p : ColumnPlace} (h : p.Holds d x t i) :
    p.text.faces.Sublist (Cursor.ofText d x).faces := by
  rw [h.faces]
  exact (List.sublist_append_left _ _).trans (List.sublist_append_right _ _)

theorem pair_text {c : ColumnText} (h : c.type ≠ []) (X Y : List Face) :
    Exchange.pair (c.name :: (c.type ++ X)) (c.name :: (c.type ++ Y)) :=
  ⟨rfl, fun _ => Face.first_append h _ _⟩

-- Two texts of a column definition are worth the same if they differ in the place or in the order of
-- its clauses only.
theorem clauses_anywhere (h : Script.parse d x = .ok (s₁ ++ .createTable t :: s₂))
    (hi : i < t.columns.length) :
    ∃ p : ColumnPlace, p.Holds d x t i ∧ (p.text.Settled →
      (∀ clauses y, clauses.Perm p.text.clauses →
        (Cursor.ofText d y).faces = p.faces { p.text with clauses := clauses }.faces →
        ∃ constraints, constraints.Perm p.text.definition.constraints ∧
          Script.parse d y = .ok (s₁ ++ .createTable { t with
            constraints := p.before.flatMap TableElement.constraints ++
              (constraints ++ p.after.flatMap TableElement.constraints) } :: s₂)) ∧
      (p.text.NamesChecks → ∀ y,
        (Cursor.ofText d y).faces = p.faces (p.text.plain.faces ++ p.text.outside) →
        Script.parse d y = Script.parse d x)) := by
  obtain ⟨p, hp, Z, hafter, hagain⟩ := exists_columnPlace h hi
  have hstable := hp.reads.stable
  have hends := hp.reads.ends
  refine ⟨p, hp, fun hsettled => ⟨fun clauses y hperm hy => ?_, fun hnamed y hy => ?_⟩⟩
  · have hcolumn := (hstable.of_subset hperm.subset).steps
      (fun part hpart => hsettled.ending part (hperm.subset hpart)) hends
    have hread := hagain _ p.behind _ p.after y ?_ hcolumn hafter hy
    · refine ⟨_, ColumnText.constraints_perm hperm, hread.trans ?_⟩
      have htable := t.ofElements_perm p.before p.after (ColumnText.column_perm hsettled hperm)
        (ColumnText.constraints_perm hperm)
      have ht : t.ofElements (p.before ++ .column p.text.definition :: p.after) = t := hp.table
      rw [htable, ht]
    · simp only [ColumnText.faces, List.cons_append, List.append_assoc]
      exact pair_text hstable.type_ne_nil _ _
  · have hsubset : p.text.clauses.filter (·.2.constraint?.isNone) ⊆ p.text.clauses :=
      List.filter_subset_self _
    have hconstraints : p.text.constraintClauses ⊆ p.text.clauses := List.filter_subset_self _
    have houtside := ColumnText.steps_outside hstable.ident
      (fun part hpart => hstable.clauses part (hconstraints hpart))
      (fun part hpart => (List.mem_filter.mp hpart).2)
      (fun part hpart => hnamed part (hconstraints hpart)) hends hafter
    have hcolumn := (hstable.of_subset hsubset).steps
      (fun part hpart => hsettled.ending part (hsubset hpart))
      (ColumnText.endsElement_commas p.text.constraintClauses
        (fun part => restated (columnFaces p.text.name) part.1) hends)
    rw [h]
    refine (hagain _ _ _ _ y ?_ hcolumn houtside (by rw [hy, faces, List.append_assoc]; rfl)).trans ?_
    · simp only [ColumnText.faces, List.cons_append, List.append_assoc]
      exact pair_text hstable.type_ne_nil _ _
    · have hdefinition : ({ p.text with clauses := p.text.clauses.filter (·.2.constraint?.isNone) } :
          ColumnText).definition = ⟨p.text.definition.column, []⟩ := p.text.definition_plain
      have ht : t.ofElements (p.before ++ .column p.text.definition :: p.after) = t := hp.table
      rw [hdefinition, p.text.constraints_constraintClauses, t.ofElements_outside, ht]

-- The unique constraint keeps its name, and the key stays in front of it.
theorem clauses_anywhere_key_and_unique :
    let x := "CREATE TABLE t (a INT PRIMARY KEY DEFAULT (1) CONSTRAINT u UNIQUE NULL, b INT)"
    ∃ t, Script.parse .postgres x = .ok [.createTable t] ∧ ∃ p : ColumnPlace,
      p.Holds .postgres x t 0 ∧ p.text.Settled ∧ p.text.NamesChecks ∧
      (∀ clauses y, clauses.Perm p.text.clauses →
        (Cursor.ofText .postgres y).faces = p.faces { p.text with clauses := clauses }.faces →
        ∃ constraints, constraints.Perm p.text.definition.constraints ∧
          Script.parse .postgres y = .ok [.createTable { t with
            constraints := p.before.flatMap TableElement.constraints ++
              (constraints ++ p.after.flatMap TableElement.constraints) }]) ∧
      ∀ y, (Cursor.ofText .postgres y).faces = p.faces (p.text.plain.faces ++ p.text.outside) →
        Script.parse .postgres y = Script.parse .postgres x := by
  intro x
  have h : Script.parse .postgres x = .ok ([] ++ .createTable ⟨false, .ofIdent (.bare "t"),
      [⟨.bare "a", ⟨"INT", [], [], 0⟩, true, some ⟨[.bare "(", .bare "1", .bare ")"]⟩, false⟩,
        ⟨.bare "b", ⟨"INT", [], [], 0⟩, false, none, false⟩],
      [⟨.bare "t_pkey", .primaryKey [.ascending (.bare "a")]⟩,
        ⟨.bare "u", .unique [.ascending (.bare "a")]⟩], []⟩ :: []) := by decide +kernel
  obtain ⟨p, hp, hclauses⟩ := clauses_anywhere h (i := 0) (by decide)
  have hcount (k : Keyword) := hp.sublist.countP_le (p := fun f => f.kind == .keyword k)
  have hsettled : p.text.Settled := hp.reads.stable.settled
    ((hcount .default).trans (by decide +kernel)) ((hcount .null).trans (by decide +kernel))
    (Nat.eq_zero_of_le_zero ((hcount .not).trans (by decide +kernel)))
  have hnamed : p.text.NamesChecks :=
    ColumnText.namesChecks (Nat.eq_zero_of_le_zero ((hcount .check).trans (by decide +kernel)))
  obtain ⟨horder, hplace⟩ := hclauses hsettled
  exact ⟨_, h, p, hp, hsettled, hnamed, horder, hplace hnamed⟩

end ColumnPlace

end SchemaDiff
