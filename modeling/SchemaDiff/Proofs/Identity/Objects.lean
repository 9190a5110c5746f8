import SchemaDiff.Proofs.Identity.Parts
import SchemaDiff.Proofs.RoundTrip

namespace SchemaDiff

open SchemaDiff.Parser

variable {d : Dialect}

theorem lexesTo_keyword {k : Keyword} (hk : k.isDialectSpecific = false) {cs : List Char}
    {more : List Face} (h : LexesTo d cs more) :
    LexesTo d (k.text.toList ++ ' ' :: cs) (.keyword k :: more) :=
  Prints.keyword (Face.keyword?_text d hk) _ _ rfl (.blank (by decide) h)

theorem DataType.Readable.exists_head {t : DataType} (h : t.Readable d) :
    ∃ f X, t.faces d = f :: X ∧ Token.isNameKind f.kind = true := by
  obtain ⟨n, zone, words, hparts⟩ := h.exists_parts
  exact ⟨_, _, hparts.faces_eq h, hparts.name.first.isNameKind⟩

-- The word that a rule begins with is no name, or it is followed by a parenthesis.
theorem Rule.exists_opening (r : Rule) (rest : List Char) :
    ∃ (k : Keyword) (cs : List Char), k.isDialectSpecific = false ∧
    r.identity.toList ++ rest = k.text.toList ++ ' ' :: cs ∧
      (k.isReserved = true ∨ k = .index ∧ cs.head? = some '(') := by
  cases r with
  | primaryKey columns =>
      exact ⟨.primary, _, rfl, by simp [identity, Keyword.text]; rfl, .inl rfl⟩
  | foreignKey columns target =>
      exact ⟨.foreign, _, rfl, by simp [identity, Keyword.text]; rfl, .inl rfl⟩
  | unique columns => exact ⟨.unique, _, rfl, by simp [identity, Keyword.text]; rfl, .inl rfl⟩
  | check body => exact ⟨.check, _, rfl, by simp [identity, Keyword.text]; rfl, .inl rfl⟩
  | index isUnique columns =>
      cases isUnique with
      | true =>
          exact ⟨.unique, _, rfl, by simp [identity, indexKind, Keyword.text]; rfl, .inl rfl⟩
      | false =>
          refine ⟨.index, (ColumnIdent.listSpelled Ident.name columns).toList ++ rest, rfl, ?_, .inr ?_⟩
          · simp [identity, indexKind, Keyword.text]
          · simp [ColumnIdent.listSpelled]

-- A column is never taken for a constraint. The type `INDEX` has no blank in front of its
-- parameters.
theorem Column.body_ne_identity {c : Column} (hr : c.Readable d) (hc : c.Clear d) (r : Rule)
    {rest rest' : List Char} (hrest : StopsAt [',', ')'] rest) :
    c.body.toList ++ rest ≠ r.identity.toList ++ rest' := by
  intro heq
  obtain ⟨hseparated, more, hmore, hends⟩ := behind_entry (d := d) hrest
  obtain ⟨hclauses, hbehind⟩ := (hc.bounded hr).prints_clauses hc.spaced
  have hlex := hr.dataType.prints.append hclauses hbehind rest more hseparated hmore
  obtain ⟨k, cs, hk, hopening, hword⟩ := r.exists_opening rest'
  have heq : c.body.toList ++ rest = k.text.toList ++ ' ' :: cs := heq.trans hopening
  have hread : LexesTo d (k.text.toList ++ ' ' :: cs) _ := heq ▸ hlex
  obtain ⟨others, hothers⟩ := exists_lexesTo d cs
  have hfaces := hread.unique (lexesTo_keyword hk hothers)
  rcases hword with hreserved | ⟨rfl, hparen⟩
  · obtain ⟨f, X, hhead, hname⟩ := hr.dataType.exists_head
    rw [hhead] at hfaces
    obtain ⟨rfl, -⟩ := List.cons.inj hfaces
    simp [Token.isNameKind, Face.keyword, hreserved] at hname
  · obtain ⟨tail, rfl⟩ := List.head?_eq_some_iff.mp hparen
    obtain ⟨behind, hbehindParen⟩ := exists_lexesTo d tail
    have hopen : LexesTo d ('(' :: tail) (.symbol .leftParen :: behind) :=
      .cons (f := .symbol .leftParen) (Face.genuine_symbol (.inl rfl)) trivial hbehindParen
    rw [hothers.unique hopen, List.append_assoc] at hfaces
    obtain ⟨text, htext⟩ := hr.dataType.opens_params (follows_clauses hends) hfaces
    have hsixth := congrArg (·[5]?) heq
    simp [body, htext, Face.keyword, Keyword.text] at hsixth

namespace CreateTable

-- Columns and constraints stand in one list.
def elementName : Column ⊕ Constraint → Ident :=
  Sum.elim Column.name Constraint.name

def elementBody : Column ⊕ Constraint → String :=
  Sum.elim Column.body Constraint.definition

def elementIdentity : Column ⊕ Constraint → String :=
  Sum.elim Column.identity Constraint.identity

def elementUnquoted : Column ⊕ Constraint → Column ⊕ Constraint :=
  Sum.map Column.unquoted Constraint.unquoted

def ElementClear (d : Dialect) : Column ⊕ Constraint → Prop :=
  Sum.elim (fun c => c.Readable d ∧ c.Clear d) fun c => c.Readable d ∧ c.Clear d

theorem decodes_element :
    Decodes elementIdentity elementUnquoted (ElementClear d) (StopsAt [',', ')']) := by
  have hname := Ident.decodes.part (G := ElementClear d) elementName fun e he => by
    cases e with
    | inl c => exact he.2.name
    | inr c => exact he.2.name
  have hcolumn := (Column.decodes_body (d := d)).mono (fun c hc => hc) fun rest hrest =>
    behind_entry hrest
  have hconstraint := (Rule.decodes (d := d)).part Constraint.rule
    fun c (hc : c.Readable d ∧ c.Clear d) => ⟨hc.1.rule, hc.2.rule⟩
  have hbody := hcolumn.either hconstraint fun c k rest rest' hc _ hrest _ =>
    Column.body_ne_identity hc.1 hc.2 (Constraint.rule k) hrest
  have hall := hname.append (hbody.lead " ") fun _ _ _ _ => stopsAt_append (c := ' ') rfl (by simp)
  refine (hall.of_eq fun e => ?_).shows fun e e' _ _ hsame => ?_
  · cases e with
    | inl c => exact c.identity_eq
    | inr c => simp [elementIdentity, elementName, Constraint.identity, Constraint.definition,
        String.append_assoc]
  · obtain ⟨hname, hbody⟩ := Prod.mk.inj hsame
    cases e with
    | inl c =>
        cases e' with
        | inl c' =>
            simp only [Sum.map_inl, Sum.inl.injEq, Column.attributes, Prod.mk.injEq] at hbody
            obtain ⟨htype, hnull, hdefault, hauto⟩ := hbody
            have hname : c.name.unquoted = c'.name.unquoted := hname
            simp only [elementUnquoted, Sum.map_inl, Column.unquoted, hname, htype, hnull, hdefault,
              hauto]
        | inr k' => cases hbody
    | inr k =>
        cases e' with
        | inl c' => cases hbody
        | inr k' =>
            have hname : k.name.unquoted = k'.name.unquoted := hname
            simp only [Sum.map_inr, Sum.inr.injEq] at hbody
            simp only [elementUnquoted, Sum.map_inr, Constraint.unquoted, hname, hbody]

theorem toList_elementIdentity (e : Column ⊕ Constraint) :
    (elementIdentity e).toList = (elementName e).name.toList ++ ' ' :: (elementBody e).toList := by
  cases e with
  | inl c => simp [elementIdentity, elementName, elementBody, Column.identity_eq]
  | inr c => simp [elementIdentity, elementName, elementBody, Constraint.identity]

theorem decodes_elements :
    Decodes (fun es : List (Column ⊕ Constraint) => ", ".intercalate (es.map elementIdentity) ++ ")")
      (·.map elementUnquoted) (fun es => ∀ e ∈ es, ElementClear d e) fun _ => True := by
  refine decodes_element.separated fun e he => ?_
  have hname : (elementName e).Clear := by
    cases e with
    | inl c => exact he.2.name
    | inr c => exact he.2.name
  obtain ⟨c, cs, hhead, hne⟩ := hname.exists_head
  exact ⟨c, _, by rw [toList_elementIdentity, hhead]; rfl, hne⟩

theorem map_identity (os : List TableOption) : os.map TableOption.identity =
    (os.map TableOption.unquoted).map TableOption.sql := by
  rw [List.map_map]
  rfl

theorem decodes_options : Decodes
    (fun os : List TableOption => " " ++ " ".intercalate (os.map TableOption.identity))
    (·.map TableOption.unquoted) (fun os => ∀ o ∈ os, o.Readable d ∧ o.Clear)
    (Behind d fun Y => (Face.first Y).kind = .symbol .semicolon) := by
  refine .of_steps (p := Parser.tableOptions d)
    (T := fun os => (os.map TableOption.unquoted).flatMap (TableOption.faces d))
    (V := fun os => os.map TableOption.unquoted) ?_ ?_ (fun _ _ _ _ _ h => h) ?_
  · intro os hos
    cases os with
    | nil => exact Prints.empty.space
    | cons o os =>
        have hprints : ∀ o' ∈ o :: os, Prints d (" " ++ o'.identity) (o'.unquoted.faces d) ∧
            Separates (" " ++ o'.identity) := fun o' ho' =>
          ⟨((hos o' ho').2.readable (hos o' ho').1).prints.space, separates_space _⟩
        have hall := (Prints.join hprints).1
        rw [List.map_cons, intercalate_cons, List.map_map, List.flatMap_map, ← String.append_assoc]
        rwa [List.map_cons, String.join_cons] at hall
  · intro os Y hos hY
    refine TableOption.steps_tableOptions ?_ hY
    simp only [List.forall_mem_map]
    exact fun o ho => (hos o ho).2.readable (hos o ho).1
  · intro os os' _ _ hsame
    simp only [map_identity, hsame]

theorem options_eq_iff {os os' : List TableOption} (h : ∀ o ∈ os, o.Readable d ∧ o.Clear)
    (h' : ∀ o ∈ os', o.Readable d ∧ o.Clear) :
    os.map TableOption.unquoted = os'.map TableOption.unquoted ↔
      os.map TableOption.identity = os'.map TableOption.identity := by
  constructor
  · intro hsame
    rw [map_identity, map_identity, hsame]
  · intro hsame
    have hend : Behind d (fun Y => (Face.first Y).kind = .symbol .semicolon) [';'] :=
      behind_statement (stopsAt_cons (by simp))
    exact (decodes_options os os' _ _ h h' hend hend (by simp only [hsame])).1

def elements (t : CreateTable) : List (Column ⊕ Constraint) :=
  t.columns.map .inl ++ t.constraints.map .inr

theorem identity_eq (t : CreateTable) : t.identity = "CREATE TABLE " ++ (t.name.name.name ++
    (" (" ++ ((", ".intercalate (t.elements.map elementIdentity) ++ ")") ++
      (" " ++ " ".intercalate (t.options.map TableOption.identity))))) := by
  have helements : t.elements.map elementIdentity =
      t.columns.map Column.identity ++ t.constraints.map Constraint.identity := by
    simp [elements, elementIdentity, Function.comp_def]
  have hclose : ∀ text : String, ") " ++ text = ")" ++ (" " ++ text) := by
    intro text
    rw [← String.append_assoc]
    rfl
  delta identity
  simp only [helements, ObjectName.identity, String.append_assoc, hclose]

theorem decodes : Decodes identity unquoted (fun t => t.Readable d ∧ t.Clear d)
    (StopsAt [';']) := by
  have hname := Ident.decodes.part (G := fun t : CreateTable => t.Readable d ∧ t.Clear d)
    (fun t => t.name.name) fun t ht => ht.2.name
  have helements := (decodes_elements (d := d)).part
    (G := fun t : CreateTable => t.Readable d ∧ t.Clear d) elements fun t ht e he => by
      rcases List.mem_append.mp he with he | he
      · obtain ⟨c, hc, rfl⟩ := List.mem_map.mp he
        exact ⟨ht.1.columns c hc, ht.2.columns c hc⟩
      · obtain ⟨c, hc, rfl⟩ := List.mem_map.mp he
        exact ⟨ht.1.constraints c hc, ht.2.constraints c hc⟩
  have hoptions := ((decodes_options (d := d)).mono (fun os hos => hos)
    fun rest hrest => behind_statement hrest).part
      (G := fun t : CreateTable => t.Readable d ∧ t.Clear d) options
      fun t ht o ho => ⟨ht.1.options o ho, ht.2.options o ho⟩
  have hbody := (helements.append hoptions fun _ _ _ _ => trivial).lead " ("
  have hall := (hname.append hbody fun _ _ _ _ =>
    stopsAt_append (c := ' ') rfl (by simp)).lead "CREATE TABLE "
  refine (hall.of_eq identity_eq).shows fun t t' _ _ hsame => ?_
  simp only [Prod.mk.injEq] at hsame
  obtain ⟨hname, helements, hoptions⟩ := hsame
  have hcolumns := congrArg (List.filterMap Sum.getLeft?) helements
  have hconstraints := congrArg (List.filterMap Sum.getRight?) helements
  simp [elements, elementUnquoted, List.filterMap_append, List.filterMap_map, Function.comp_def]
    at hcolumns hconstraints
  simp only [unquoted, ObjectName.unquoted, hname, hcolumns, hconstraints, hoptions]

end CreateTable

namespace CreateIndex

theorem decodes_kind : Decodes (fun i : CreateIndex => Rule.indexKind i.unique ++ " ") (·.unique)
    (fun _ => True) fun _ => True := by
  intro i i' rest rest' _ _ _ _ heq
  have hfirst := congrArg (·[0]?) heq
  cases hu : i.unique <;> cases hu' : i'.unique <;> simp [hu, hu', Rule.indexKind] at heq hfirst ⊢ <;>
    exact heq

theorem decodes_method : Decodes
    (fun o : Option Ident => o.elim "" fun m => "USING " ++ (Text.upper m.name ++ " "))
    (·.map fun m => Ident.bare (Text.upper m.name)) (fun o => ∀ m ∈ o, m.Clear) (StopsAt ['(']) := by
  have hupper : Decodes (fun m : Ident => Text.upper m.name) (fun m => Ident.bare (Text.upper m.name))
      Ident.Clear (StopsAt [' ']) :=
    .of_stops (fun m hm c hc => List.mem_singleton.mp hc ▸ notMem_upper hm.plain)
      fun _ _ _ _ h => congrArg Ident.bare h
  refine (hupper.trail " " fun rest (_ : StopsAt ['('] rest) => ⟨' ', by simp, rfl⟩).optional
    "USING " (c := 'U') rfl fun rest hrest hhead => ?_
  obtain ⟨c, hc, hfirst⟩ := hrest
  rw [hhead] at hfirst
  simp [← Option.some.inj hfirst] at hc

theorem decodes_predicate : Decodes
    (fun o : Option Expr => o.elim "" (" WHERE " ++ ·.identity)) (·.map Expr.unquoted)
    (fun o => ∀ e ∈ o, e.Readable d .statement ∧ e.Clear d) (StopsAt [';']) := by
  refine ((Expr.decodes .statement).mono (fun e he => he) fun rest hrest =>
    behind_statement hrest).optional " WHERE " (c := ' ') rfl fun rest hrest hhead => ?_
  obtain ⟨c, hc, hfirst⟩ := hrest
  rw [hhead] at hfirst
  simp [← Option.some.inj hfirst] at hc

theorem identity_eq (i : CreateIndex) : i.identity = "CREATE " ++ ((Rule.indexKind i.unique ++ " ") ++
    (i.name.name.name ++ (" ON " ++ (i.table.name.name ++ (" " ++
      ((i.method.elim "" fun m => "USING " ++ (Text.upper m.name ++ " ")) ++
        (ColumnIdent.listSpelled Ident.name i.columns ++
          i.predicate.elim "" (" WHERE " ++ ·.identity)))))))) := by
  have husing : ∀ text : String, " USING " ++ text = " " ++ ("USING " ++ text) := by
    intro text
    rw [← String.append_assoc]
    rfl
  cases hm : i.method with
  | none => simp only [identity, kind, ObjectName.identity, hm, Option.elim_none, String.append_assoc,
      String.empty_append]
  | some m => simp only [identity, kind, ObjectName.identity, hm, Option.elim_some,
      String.append_assoc, husing]

theorem decodes : Decodes identity unquoted (fun i => i.Readable d ∧ i.Clear d) (StopsAt [';']) := by
  have hkind := decodes_kind.part (G := fun i : CreateIndex => i.Readable d ∧ i.Clear d) id
    fun _ _ => trivial
  have hname := Ident.decodes.part (G := fun i : CreateIndex => i.Readable d ∧ i.Clear d)
    (fun i => i.name.name) fun i hi => hi.2.name
  have htable := Ident.decodes.part (G := fun i : CreateIndex => i.Readable d ∧ i.Clear d)
    (fun i => i.table.name) fun i hi => hi.2.table
  have hmethod := decodes_method.part (G := fun i : CreateIndex => i.Readable d ∧ i.Clear d) method
    fun i hi => hi.2.method
  have hcolumns := ColumnIdent.decodes_list.part
    (G := fun i : CreateIndex => i.Readable d ∧ i.Clear d) columns fun i hi => hi.2.columns
  have hpredicate := (decodes_predicate (d := d)).part
    (G := fun i : CreateIndex => i.Readable d ∧ i.Clear d) predicate
    fun i hi e he => ⟨hi.1.predicate e he, hi.2.predicate e he⟩
  have hlist := hcolumns.append hpredicate fun _ _ _ _ => trivial
  have hbehind := (hmethod.append hlist fun i rest _ _ => by
    rw [ColumnIdent.listSpelled, String.append_assoc, String.append_assoc]
    exact stopsAt_append (c := '(') rfl (by simp)).lead " "
  have honTable := (htable.append hbehind fun _ _ _ _ =>
    stopsAt_append (c := ' ') rfl (by simp)).lead " ON "
  have hnamed := hname.append honTable fun _ _ _ _ => stopsAt_append (c := ' ') rfl (by simp)
  have hall := (hkind.append hnamed fun _ _ _ _ => trivial).lead "CREATE "
  refine (hall.of_eq identity_eq).shows fun i i' _ _ hsame => ?_
  simp only [id, Prod.mk.injEq] at hsame
  obtain ⟨hunique, hname, htable, hmethod, hcolumns, hpredicate⟩ := hsame
  simp only [unquoted, ObjectName.unquoted, hunique, hname, htable, hmethod, hcolumns, hpredicate]

theorem identity_unquoted (i : CreateIndex) : i.unquoted.identity = i.identity := by
  have hmethod : (i.unquoted.method.elim "" fun m => " USING " ++ Text.upper m.name) =
      i.method.elim "" fun m => " USING " ++ Text.upper m.name := by
    unfold unquoted
    cases i.method <;> simp [Ident.bare, Text.upper_upper]
  have hpredicate : i.unquoted.predicate.elim "" (" WHERE " ++ ·.identity) =
      i.predicate.elim "" (" WHERE " ++ ·.identity) := by
    unfold unquoted
    cases i.predicate <;> simp [Expr.identity_unquoted]
  simp only [identity, hmethod, hpredicate]
  simp only [unquoted, kind, ColumnIdent.listSpelled_unquoted, ObjectName.unquoted,
    ObjectName.identity, ObjectName.ofIdent, Ident.unquoted, Ident.bare]

theorem unquoted_eq_iff {i i' : CreateIndex} (h : i.Readable d ∧ i.Clear d)
    (h' : i'.Readable d ∧ i'.Clear d) : i.unquoted = i'.unquoted ↔ i.identity = i'.identity := by
  constructor
  · intro hsame
    rw [← identity_unquoted, hsame, identity_unquoted]
  · intro hsame
    have hend : StopsAt [';'] [';'] := stopsAt_cons (by simp)
    exact (decodes i i' _ _ h h' hend hend (by rw [hsame])).1

end CreateIndex

namespace Statement

theorem decodes_identity : Decodes identity unquoted
    (fun s => s.Creates ∧ s.Readable d ∧ s.Clear d) (StopsAt [';']) := by
  rintro s s' rest rest' ⟨hs, hr, hc⟩ ⟨hs', hr', hc'⟩ hrest hrest' heq
  have heighth := congrArg (·[7]?) heq
  cases s with
  | createTable t =>
      cases s' with
      | createTable t' =>
          obtain ⟨hsame, htail⟩ := CreateTable.decodes t t' _ _ ⟨hr, hc⟩ ⟨hr', hc'⟩ hrest hrest' heq
          exact ⟨congrArg createTable hsame, htail⟩
      | createIndex i' =>
          cases hu : i'.unique <;> simp [identity, CreateTable.identity_eq, CreateIndex.identity,
            CreateIndex.kind, Rule.indexKind, hu] at heighth
      | _ => exact absurd hs' id
  | createIndex i =>
      cases s' with
      | createTable t' =>
          cases hu : i.unique <;> simp [identity, CreateTable.identity_eq, CreateIndex.identity,
            CreateIndex.kind, Rule.indexKind, hu] at heighth
      | createIndex i' =>
          obtain ⟨hsame, htail⟩ := CreateIndex.decodes i i' _ _ ⟨hr, hc⟩ ⟨hr', hc'⟩ hrest hrest' heq
          exact ⟨congrArg createIndex hsame, htail⟩
      | _ => exact absurd hs' id
  | _ => exact absurd hs id

-- A statement of a schema, up to the end of its line.
theorem decodes : Decodes (fun s : Statement => s.identity ++ ";\n") unquoted
    (fun s => s.Creates ∧ s.Readable d ∧ s.Clear d) fun _ => True :=
  decodes_identity.trail ";\n" fun _ _ => ⟨';', by simp, by simp⟩

theorem identity_ne_empty {s : Statement} (h : s.Creates) : s.identity ≠ "" := by
  intro hempty
  cases s with
  | createTable t => simp [identity, CreateTable.identity_eq] at hempty
  | createIndex i => simp [identity, CreateIndex.identity, CreateIndex.kind] at hempty
  | _ => exact absurd h id

end Statement

namespace Script

theorem intercalate_trail (sep first : String) (texts : List String) :
    sep.intercalate (first :: texts) ++ sep = String.join ((first :: texts).map (· ++ sep)) := by
  induction texts generalizing first with
  | nil => simp
  | cons next texts ih =>
      rw [String.intercalate_cons_cons, String.append_assoc, ih, List.map_cons, List.map_cons,
        List.map_cons, String.join_cons, String.join_cons, String.join_cons]

-- Two schemas of one identity are one schema, but for what comparisons do not see.
theorem unquoted_of_identity {s s' : Script}
    (hs : ∀ statement ∈ s, statement.Creates ∧ statement.Readable d ∧ statement.Clear d)
    (hs' : ∀ statement ∈ s', statement.Creates ∧ statement.Readable d ∧ statement.Clear d)
    (h : Script.identity s = Script.identity s') :
    s.map Statement.unquoted = s'.map Statement.unquoted := by
  have hnil : ∀ (first : Statement) s, first.Creates → Script.identity (first :: s) ≠ "" := by
    intro first s hfirst hempty
    rw [Script.identity, List.map_cons, intercalate_cons, String.append_eq_empty_iff] at hempty
    exact Statement.identity_ne_empty hfirst hempty.1
  cases s with
  | nil =>
      cases s' with
      | nil => rfl
      | cons first' s' => exact absurd h.symm (hnil first' s' (hs' first' (by simp)).1)
  | cons first s =>
      cases s' with
      | nil => exact absurd h (hnil first s (hs first (by simp)).1)
      | cons first' s' =>
          refine Statement.decodes.join (fun x hx hempty => ?_) hs hs' ?_
          · exact Statement.identity_ne_empty hx.1 (String.append_eq_empty_iff.mp hempty).1
          · have hjoin := congrArg (· ++ ";\n") h
            simp only [Script.identity, List.map_cons, intercalate_trail] at hjoin
            simpa [Function.comp_def] using hjoin

end Script

end SchemaDiff
