import SchemaDiff.Proofs.Ident
import SchemaDiff.Proofs.Parser.Yields
import SchemaDiff.Proofs.Token.Fixed

namespace SchemaDiff

variable {d : Dialect}

-- The texts of list items, each behind the separator.
theorem intercalate_cons (sep text : String) (texts : List String) :
    sep.intercalate (text :: texts) = text ++ String.join (texts.map (sep ++ ·)) := by
  induction texts generalizing text with
  | nil => simp
  | cons next texts ih =>
      rw [String.intercalate_cons_cons, ih, List.map_cons, String.join_cons, String.append_assoc,
        String.append_assoc]

theorem Prints.join {α : Type} {text : α → String} {tokens : α → List Face} {as : List α}
    (h : ∀ a ∈ as, Prints d (text a) (tokens a) ∧ Separates (text a)) :
    Prints d (String.join (as.map text)) (as.flatMap tokens) ∧
      Separates (String.join (as.map text)) := by
  induction as with
  | nil => exact ⟨.empty, separates_empty⟩
  | cons a as ih =>
      obtain ⟨hp, hs⟩ := ih fun b hb => h b (by simp [hb])
      rw [List.map_cons, String.join_cons, List.flatMap_cons]
      exact ⟨(h a (by simp)).1.append hp hs, (h a (by simp)).2.append hs⟩

-- Items with commas between them, and blanks behind the commas.
theorem Prints.separatedBy {α : Type} {text : α → String} {tokens : α → List Face} {as : List α}
    (sep blank : String) (hsep : sep = "," ++ blank)
    (hblank : blank.toList.all Text.isBlank = true)
    (h : ∀ a ∈ as, Prints d (text a) (tokens a)) :
    Prints d (sep.intercalate (as.map text)) (Face.separated tokens as) := by
  cases as with
  | nil => exact .empty
  | cons a as =>
      have hcomma : ∀ b ∈ as, Prints d (sep ++ text b) (Face.symbol .comma :: tokens b) ∧
          Separates (sep ++ text b) := by
        intro b hb
        rw [hsep, String.append_assoc]
        refine ⟨?_, separates_of_head (c := ',') (by simp) (by decide)⟩
        exact (Prints.blanks hblank (h b (by simp [hb]))).comma
      obtain ⟨hp, hs⟩ := Prints.join hcomma
      rw [List.map_cons, intercalate_cons, List.map_map]
      exact (h a (by simp)).append hp hs

theorem Prints.separated {α : Type} {text : α → String} {tokens : α → List Face} {as : List α}
    (h : ∀ a ∈ as, Prints d (text a) (tokens a)) :
    Prints d (", ".intercalate (as.map text)) (Face.separated tokens as) :=
  .separatedBy ", " " " rfl (by decide) h

namespace Parser

-- A name begins with the token that it was read from.
theorem yieldsAt_ident {c : Context} {t : Token} (ht : t.Scanned d) :
    YieldsAt d t (ident c) fun i => i.Readable d ∧ i.face d = t.face := by
  intro s i s' hs hcurrent h
  obtain ⟨u, v, hu, h⟩ := bind_eq_ok.mp h
  cases hu
  rw [hcurrent] at h
  cases hi : identOf? t with
  | none =>
      rw [hi] at h
      cases h
  | some name =>
      rw [hi] at h
      obtain ⟨x, w, hx, h⟩ := bind_eq_ok.mp h
      cases hx
      cases h
      have hgenuine : t.face.Genuine d := by
        refine ht ?_ ?_ <;>
        · intro hk
          simp [identOf?, hk] at hi
      refine ⟨⟨Ident.readable_of_token hgenuine hi, ?_⟩, hs.next⟩
      rw [Ident.face, Ident.identOf?_raw hi]
      exact hgenuine.read_eq

theorem yields_ident {c : Context} : Yields d (ident c) (·.Readable d) :=
  fun s i s' hs h =>
    have hi := yieldsAt_ident hs.current s i s' hs rfl h
    ⟨hi.1.1, hi.2⟩

theorem steps_ident {i : Ident} (h : i.Readable d) (c : Context) (Y : List Face) :
    Steps (ident c) (i.face d :: Y) i Y := by
  refine .current fun t ht => ?_
  have hi : identOf? t = some i := by
    rw [← Ident.identOf?_face, ht]
    exact h.read
  rw [hi]
  exact .advance fun _ _ => .pure i Y

end Parser

-- The kinds of tokens that are read as names.
def Token.isNameKind : TokenKind → Bool
  | .identifier | .quotedIdentifier _ => true
  | .keyword k => !k.isReserved
  | _ => false

theorem Ident.Readable.isNameKind {i : Ident} (h : i.Readable d) :
    Token.isNameKind (i.face d).kind = true := by
  have hread := h.read
  unfold Parser.identOf? at hread
  split at hread
  · rename_i hk
    exact congrArg Token.isNameKind hk
  · rename_i q hk
    exact congrArg Token.isNameKind hk
  · rename_i k hk
    split at hread
    · cases hread
    · rename_i hr
      refine (congrArg Token.isNameKind hk).trans ?_
      simpa [Token.isNameKind] using hr
  · cases hread

theorem Ident.Readable.noDigit {i : Ident} (h : i.Readable d) (rest : List Char) :
    Token.NoDigit (i.raw.toList ++ rest) := by
  have hk : (i.face d).kind ≠ .number := by
    intro hk
    have hn := h.isNameKind
    rw [hk] at hn
    exact Bool.false_ne_true hn
  have hd := Token.noDigit_of_genuine h.genuine hk rest
  rwa [Ident.face_literal] at hd

-- A dot ends a name, and no digit follows it.
theorem Prints.dotted {f : Face} (hf : f.Genuine d) (hk : Token.isNameKind f.kind = true)
    {i : Ident} (hi : i.Readable d) :
    Prints d (f.literal ++ ("." ++ i.raw)) [f, .symbol .dot, i.face d] := by
  intro rest more hr hm
  have hname := hi.prints rest more hr hm
  have hdot := LexesTo.cons (Face.genuine_symbol (s := .dot) (by decide)) (hi.noDigit rest) hname
  have hends : Token.Ends f.kind ('.' :: (i.raw.toList ++ rest)) := by
    revert hk
    cases f.kind <;> first | exact fun _ => rfl | simp [Token.isNameKind]
  have hall := LexesTo.cons hf hends hdot
  simpa [String.toList_append] using hall

namespace ObjectName

structure Readable (d : Dialect) (n : ObjectName) : Prop where
  schema : ∀ s ∈ n.schema, s.Readable d
  name : n.name.Readable d

def faces (d : Dialect) (n : ObjectName) : List Face :=
  match n.schema with
  | some schema => [schema.face d, .symbol .dot, n.name.face d]
  | none => [n.name.face d]

theorem Readable.prints {n : ObjectName} (h : n.Readable d) : Prints d n.sql (n.faces d) := by
  cases hs : n.schema with
  | none =>
      simp only [sql, faces, hs]
      exact h.name.prints
  | some schema =>
      have hschema := h.schema schema hs
      have hdotted := Prints.dotted hschema.genuine hschema.isNameKind h.name
      simp only [sql, faces, hs, String.append_assoc]
      rwa [Ident.face_literal] at hdotted

theorem first_faces (n : ObjectName) (Y : List Face) :
    Face.first (n.faces d ++ Y) = Face.first (n.faces d) := by
  unfold faces
  cases n.schema <;> rfl

theorem yieldsAt_objectName {c : Context} {t : Token} (ht : t.Scanned d) :
    Parser.YieldsAt d t (Parser.objectName c) fun n =>
      n.Readable d ∧ Face.first (n.faces d) = t.face := by
  refine .bind (Parser.yieldsAt_ident ht) fun first hfirst => .bind .consume fun b _ => ?_
  cases b with
  | true =>
      exact .bind Parser.yields_ident fun name hname =>
        .pure ⟨⟨by simpa using hfirst.1, hname⟩, hfirst.2⟩
  | false => exact .pure ⟨⟨by simp [ofIdent], hfirst.1⟩, hfirst.2⟩

theorem yields_objectName {c : Context} : Parser.Yields d (Parser.objectName c) (·.Readable d) :=
  fun s n s' hs h =>
    have hn := yieldsAt_objectName hs.current s n s' hs rfl h
    ⟨hn.1.1, hn.2⟩

theorem Readable.steps {n : ObjectName} (h : n.Readable d) (c : Context) {Y : List Face}
    (hY : (Face.first Y).kind ≠ .symbol .dot) :
    Parser.Steps (Parser.objectName c) (n.faces d ++ Y) n Y := by
  rcases n with ⟨_ | schema, name⟩
  · exact .bind (Parser.steps_ident h.name c Y) (.bind (.consume_false hY) (.pure _ Y))
  · exact .bind (Parser.steps_ident (h.schema schema rfl) c _)
      (.bind (.consume_true rfl) (.bind (Parser.steps_ident h.name c Y) (.pure _ Y)))

end ObjectName

namespace ColumnIdent

def faces (d : Dialect) (c : ColumnIdent) : List Face :=
  match c.order with
  | .ascending => [c.ident.face d]
  | .descending => [c.ident.face d, .keyword .desc]

theorem prints {c : ColumnIdent} (h : c.ident.Readable d) : Prints d c.sql (c.faces d) := by
  cases ho : c.order with
  | ascending =>
      simp only [sql, spelled, faces, ho]
      exact h.prints
  | descending =>
      have hdesc : Prints d " DESC" [.keyword .desc] :=
        (Prints.commonPhrase [.desc] (by decide)).space
      simp only [sql, spelled, faces, ho]
      exact h.prints.append hdesc (separates_of_head (c := ' ') rfl (by decide))

-- What may stand behind a column in a list.
def Follows (Y : List Face) : Prop :=
  (Face.first Y).kind ≠ .keyword .desc ∧ (Face.first Y).kind ≠ .keyword .asc

theorem steps {c : ColumnIdent} (h : c.ident.Readable d) (x : Context) {Y : List Face}
    (hY : Follows Y) : Parser.Steps (Parser.columnIdent x) (c.faces d ++ Y) c Y := by
  rcases c with ⟨ident, _ | _⟩
  · exact .bind (Parser.steps_ident h x Y) (.bind (.consume_false hY.1)
      (.bind (.consume_false hY.2) (.pure _ Y)))
  · exact .bind (Parser.steps_ident h x _) (.bind (.consume_true rfl) (.pure _ Y))

-- A list of columns as keys, indexes and references have it.
structure ListReadable (d : Dialect) (columns : List ColumnIdent) : Prop where
  ne_nil : columns ≠ []
  readable : ∀ c ∈ columns, c.ident.Readable d

def listFaces (d : Dialect) (columns : List ColumnIdent) : List Face :=
  .symbol .leftParen :: (Face.separated (faces d) columns ++ [.symbol .rightParen])

theorem ListReadable.prints {columns : List ColumnIdent} (h : ListReadable d columns) :
    Prints d (listSpelled Ident.raw columns) (listFaces d columns) := by
  have hitems := Prints.separated fun c hc => ColumnIdent.prints (h.readable c hc)
  have hclosed : Prints d ")" [.symbol .rightParen] := Prints.empty.rightParen
  rw [listSpelled, String.append_assoc]
  exact (hitems.append hclosed (separates_of_head (c := ')') rfl (by decide))).leftParen

theorem yields_columnIdent {x : Context} :
    Parser.Yields d (Parser.columnIdent x) (·.ident.Readable d) := by
  refine .bind Parser.yields_ident fun name hname => .bind .consume fun b _ => ?_
  cases b with
  | true => exact .pure hname
  | false => exact .bind .consume fun _ _ => .pure hname

theorem yields_columnList {x : Context} :
    Parser.Yields d (Parser.columnList x) (ListReadable d) :=
  .inParens ((Parser.Yields.commaSeparated yields_columnIdent).mono fun _ h => ⟨h.1, h.2⟩)

theorem ListReadable.steps {columns : List ColumnIdent} (h : ListReadable d columns) (x : Context)
    (Y : List Face) : Parser.Steps (Parser.columnList x) (listFaces d columns ++ Y) columns Y := by
  rw [listFaces, List.cons_append, List.append_assoc]
  refine .inParens (r := .symbol .rightParen) rfl rfl ?_
  exact .commaSeparated Follows h.ne_nil
    (fun c hc Y hY => ColumnIdent.steps (h.readable c hc) x hY) (fun Y => by simp [Follows])
    (by simp [Follows, Face.symbol]) (by simp [Face.symbol])

end ColumnIdent

end SchemaDiff
