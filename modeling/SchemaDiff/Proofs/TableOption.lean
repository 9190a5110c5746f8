import SchemaDiff.Proofs.OptionText

namespace SchemaDiff

open SchemaDiff.Parser

variable {d : Dialect}

-- A word in front of an equals sign.
theorem Prints.beforeEqual {f : Face} (hf : f.Genuine d) (hk : Token.isWordKind f.kind = true)
    {text : String} {faces : List Face} (h : Prints d text faces) :
    Prints d (f.literal ++ ("=" ++ text)) (f :: .symbol .equal :: faces) := by
  intro rest more hr hm
  have hequal := Prints.symbol (s := .equal) (by decide) h rest more hr hm
  have hends : Token.Ends f.kind ((Symbol.equal.text ++ text).toList ++ rest) := by
    rw [String.toList_append]
    revert hk
    cases f.kind <;> first | exact fun _ => rfl | simp [Token.isWordKind]
  rw [String.toList_append, List.append_assoc]
  exact .cons hf hends hequal

-- Words with blanks between them, in front of a text that may follow each of them.
theorem Prints.words {words : List String} {text : String} {faces : List Face} (hne : words ≠ [])
    (hwords : ∀ w ∈ words, (Face.read d w).Genuine d)
    (hlast : ∀ w ∈ words, Prints d (w ++ text) (Face.read d w :: faces)) :
    Prints d (" ".intercalate words ++ text) (words.map (Face.read d) ++ faces) := by
  cases words with
  | nil => exact absurd rfl hne
  | cons w words =>
      induction words generalizing w with
      | nil => simpa using hlast w (by simp)
      | cons next words ih =>
          have hrest := ih next (by simp) (fun v hv => hwords v (by simp [hv]))
            fun v hv => hlast v (by simp [hv])
          have hfirst := Prints.face (hwords w (by simp))
          rw [Face.read_literal] at hfirst
          rw [String.intercalate_cons_cons, String.append_assoc, String.append_assoc]
          exact hfirst.append hrest.space (separates_space _)

namespace Parser

theorem optionName_subset (known : List (List String)) (name : List String) (tokens : List Token) :
    (optionName known name tokens).2 ⊆ tokens := by
  induction tokens generalizing name with
  | nil => exact List.Subset.refl _
  | cons t tokens ih =>
      unfold optionName
      split
      · dsimp only
        split
        · exact List.Subset.trans (ih _) (List.subset_cons_self t tokens)
        · exact List.Subset.refl _
      · exact List.Subset.refl _

theorem optionWords_read {words : List String}
    (h : ∀ w ∈ words, optionWord? (Face.read d w).token = some w) :
    (words.map (Face.read d)).map (optionWord? ∘ Face.token) = words.map some := by
  rw [List.map_map]
  exact List.map_congr_left h

end Parser

namespace TableOption

structure Readable (d : Dialect) (o : TableOption) : Prop where
  name : ∃ words ∈ d.tableOptions, o.name = " ".intercalate words
  genuine : (o.value.face d).Genuine d
  value : optionValue? (o.value.face d).token = some o.value

def faces (d : Dialect) (o : TableOption) : List Face :=
  (Cursor.ofText d o.sql).faces

def valueFaces (d : Dialect) (o : TableOption) : List Face :=
  if o.equals then [.symbol .equal, o.value.face d] else [o.value.face d]

-- The option with the words of its name, and without a comma.
def written (d : Dialect) (o : TableOption) (words : List String) : OptionText :=
  ⟨words.map (Face.read d), o.equals, o.value.face d, false⟩

variable {o : TableOption} {words : List String}

theorem written_faces : (o.written d words).faces = words.map (Face.read d) ++ valueFaces d o := rfl

theorem written_name (hwords : words ∈ d.tableOptions) : (o.written d words).name = words := by
  have hread : ∀ w ∈ words, Text.upper (Face.read d w).literal = w := by
    intro w hw
    obtain ⟨-, hkind, hword⟩ := (optionWord?_of_options hwords).2 w hw
    rw [OptionText.optionWord?_of_isWordKind hkind] at hword
    exact Option.some.inj hword
  rw [OptionText.name, written, List.map_map]
  exact (List.map_congr_left hread).trans (List.map_id words)

theorem Readable.known (h : o.Readable d) (hwords : words ∈ d.tableOptions) :
    (o.written d words).Known d where
  words f hf := by
    obtain ⟨w, hw, rfl⟩ := List.mem_map.mp hf
    exact ((optionWord?_of_options hwords).2 w hw).2.1
  name := by rwa [written_name hwords]
  value := (OptionText.optionValue?_eq_some h.value).1

theorem Readable.option_written (h : o.Readable d) (hwords : words ∈ d.tableOptions)
    (hname : o.name = " ".intercalate words) : (o.written d words).option = o := by
  have hvalue := (OptionText.optionValue?_eq_some h.value).2
  rw [OptionText.option, written_name hwords, ← hname]
  exact congrArg (TableOption.mk o.name · o.equals) hvalue

theorem Readable.prints_words (h : o.Readable d) (hwords : words ∈ d.tableOptions)
    (hname : o.name = " ".intercalate words) :
    Prints d o.sql (words.map (Face.read d) ++ valueFaces d o) := by
  obtain ⟨hne, hread⟩ := optionWord?_of_options hwords
  have hvalue : Prints d o.value.raw [o.value.face d] := by
    have hp := Prints.face h.genuine
    rwa [Ident.face_literal] at hp
  rw [sql, hname, String.append_assoc]
  refine .words hne (fun w hw => (hread w hw).1) fun w hw => ?_
  obtain ⟨hgenuine, hkind, -⟩ := hread w hw
  unfold valueFaces
  cases o.equals with
  | true =>
      have hp := Prints.beforeEqual hgenuine hkind hvalue
      rwa [Face.read_literal] at hp
  | false =>
      have hp := (Prints.face hgenuine).append hvalue.space (separates_space _)
      rwa [Face.read_literal] at hp

-- The tokens of an option are those of its text, and the first one is a word.
theorem Readable.faces_eq (h : o.Readable d) : ∃ words ∈ d.tableOptions,
    o.name = " ".intercalate words ∧ o.faces d = words.map (Face.read d) ++ valueFaces d o := by
  obtain ⟨words, hwords, hname⟩ := h.name
  exact ⟨words, hwords, hname, (h.prints_words hwords hname).lexesTo.ofText⟩

theorem Readable.prints (h : o.Readable d) : Prints d o.sql (o.faces d) := by
  obtain ⟨words, hwords, hname, hfaces⟩ := h.faces_eq
  rw [hfaces]
  exact h.prints_words hwords hname

theorem Readable.steps (h : o.Readable d) {Y : List Face}
    (hY : (Face.first Y).kind ≠ .symbol .comma) :
    Steps (tableOption? d) (o.faces d ++ Y) (some o) Y := by
  obtain ⟨words, hwords, hname, hfaces⟩ := h.faces_eq
  have hsteps := (h.known hwords).steps hY
  rwa [h.option_written hwords hname, written_faces, ← hfaces] at hsteps

theorem Readable.exists_word (h : o.Readable d) :
    ∃ f X, o.faces d = f :: X ∧ Token.isWordKind f.kind = true := by
  obtain ⟨words, hwords, -, hfaces⟩ := h.faces_eq
  obtain ⟨hne, hread⟩ := optionWord?_of_options hwords
  cases words with
  | nil => exact absurd rfl hne
  | cons w words => exact ⟨Face.read d w, _, hfaces, (hread w (by simp)).2.1⟩

theorem steps_tableOptions {options : List TableOption} (h : ∀ o ∈ options, o.Readable d)
    {Y : List Face} (hY : (Face.first Y).kind = .symbol .semicolon) :
    Steps (Parser.tableOptions d) (options.flatMap (faces d) ++ Y) options Y := by
  refine .many (fun Z => (Face.first Z).kind ≠ .symbol .comma) (fun o ho Z hZ => (h o ho).steps hZ)
    (fun o ho => ?_) (fun o ho Z => ?_) ?_ (by simp [hY])
  · obtain ⟨f, X, hfaces, -⟩ := (h o ho).exists_word
    simp [hfaces]
  · obtain ⟨f, X, hfaces, hk⟩ := (h o ho).exists_word
    rw [hfaces]
    intro hcomma
    rw [List.cons_append, Face.first_cons] at hcomma
    rw [hcomma] at hk
    exact Bool.false_ne_true hk
  · exact steps_tableOption?_none (OptionText.not_starts_of_ends (.inl hY))

theorem yields_optionValue : Yields d optionValue fun i =>
    (i.face d).Genuine d ∧ optionValue? (i.face d).token = some i := by
  refine .current fun t ht => ?_
  have hvalue : ∀ i : Ident, i.raw = t.literal → optionValue? t = some i →
      (i.face d).Genuine d ∧ optionValue? (i.face d).token = some i := by
    intro i hraw hi
    have hgenuine : t.face.Genuine d := by
      refine ht ?_ ?_ <;>
      · intro hk
        simp [optionValue?, hk] at hi
    have hface : i.face d = t.face := by
      rw [Ident.face, hraw]
      exact hgenuine.read_eq
    rw [hface]
    exact ⟨hgenuine, hi⟩
  have hbare : optionValue? t = some (.bare t.literal) →
      YieldsAt d t (Parser.advance >>= fun t => pure (Ident.bare t.literal)) fun i =>
        (i.face d).Genuine d ∧ optionValue? (i.face d).token = some i :=
    fun h => .advance (.pure (hvalue _ rfl h))
  cases hk : t.kind with
  | quotedIdentifier q =>
      exact .advance (.pure (hvalue (.ofLiteral q t.literal) rfl (by simp [optionValue?, hk])))
  | identifier => exact hbare (by simp [optionValue?, hk])
  | keyword k => exact hbare (by simp [optionValue?, hk])
  | number => exact hbare (by simp [optionValue?, hk])
  | string => exact hbare (by simp [optionValue?, hk])
  | _ => exact .of .fail

theorem yields_knownOptionName : Yields d (knownOptionName d) fun _ => True := by
  intro s name s' hs h
  cases h
  exact ⟨trivial, hs.of_subset (optionName_subset _ _ _)⟩

theorem yields_tableOptions :
    Yields d (Parser.tableOptions d) fun options => ∀ o ∈ options, o.Readable d := by
  refine .many (.bind yields_knownOptionName fun name _ => ?_)
  cases name with
  | nil => exact .pure (by simp)
  | cons w words =>
      dsimp only
      split
      · rename_i hcontains
        refine .bind .consume fun equals _ => .bind yields_optionValue fun value hvalue =>
          .bind .consume fun _ _ => .pure ?_
        have hname : ∃ name ∈ d.tableOptions, " ".intercalate (w :: words) = " ".intercalate name :=
          ⟨w :: words, by simpa using hcontains, rfl⟩
        simpa using (⟨hname, hvalue.1, hvalue.2⟩ :
          (⟨" ".intercalate (w :: words), value, equals⟩ : TableOption).Readable d)
      · exact .fail

end TableOption

end SchemaDiff
