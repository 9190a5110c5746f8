import SchemaDiff.Proofs.Completion.Column
import SchemaDiff.Proofs.TableOption

namespace SchemaDiff

namespace Parser

open Follow

namespace Viable

variable {d : Dialect} {l : Lookahead} {φ : Follow}

theorem indexName? : Viable d l (some [.symbol .leftParen]) Parser.indexName? [] :=
  present (pure none) (fun s hs => ((ident _).map _).everywhere s hs) (by decide)

theorem uniqueIndexName? : Viable d l (some [.symbol .leftParen]) Parser.uniqueIndexName? [] := by
  have hword : Viable d .token (some [.symbol .leftParen])
      (Parser.consumeKeyword .key <||> Parser.consumeKeyword .index) [] :=
    skipped _ (by simp) (pure true) (consume _ (by simp) (by decide)) (by decide)
  refine hword.seq (fun found => ?_) (.refl _)
  split
  · exact indexName?
  · exact pure none

theorem inlineIndex : Viable d l φ Parser.inlineIndex
    [Face.symbol .leftParen, Face.filler, Face.symbol .rightParen] :=
  indexName?.seq (fun name => (columnList _).map (name, ·)) (.cons _ (by decide))

theorem withQuoteHint_eq_ok {α : Type} {p : Parser α} {word : String} {s u : Cursor} {a : α}
    (h : Parser.withQuoteHint word p s = .ok a u) : p s = .ok a u := by
  unfold Parser.withQuoteHint at h
  split at h
  · cases h
  · exact h

theorem withQuoteHint_eq_error {α : Type} {p : Parser α} {word : String} {s u : Cursor}
    {e : ParseError} (h : Parser.withQuoteHint word p s = .error e u)  :
    ∃ e', p s = .error e' u ∧ e'.expected? = e.expected? := by
  unfold Parser.withQuoteHint at h
  split at h
  · rename_i hp
    cases h
    exact ⟨_, hp, rfl⟩
  · exact ⟨e, h, rfl⟩

theorem withQuoteHint {α : Type} {p : Parser α} {Z : List Face} (word : String)
    (h : Viable d l φ p Z) : Viable d l φ (Parser.withQuoteHint word p) Z := by
  have hcompletes {r : List Face} (hr : r ≠ [] → Completes d φ p r) :
      r ≠ [] → Completes d φ (Parser.withQuoteHint word p) r := by
    intro hne
    obtain ⟨Z, hZ, hsteps⟩ := hr hne
    refine ⟨Z, hZ, fun Y hY => ?_⟩
    obtain ⟨a, ha⟩ := hsteps Y hY
    exact ⟨a, Steps.withQuoteHint word ha⟩
  refine ⟨fun s hs => ?_, h.inhabited, h.genuine, fun Y hY => ?_⟩
  · obtain ⟨hok, herror⟩ := h.everywhere s hs
    constructor
    · intro a u hu
      obtain ⟨r, hr, hcomplete, hsteps⟩ := hok a u (withQuoteHint_eq_ok hu)
      exact ⟨r, hr, hcompletes hcomplete, fun Y hY => Steps.withQuoteHint word (hsteps Y hY)⟩
    · intro e u hu he
      obtain ⟨e', hu', hexpected⟩ := withQuoteHint_eq_error hu
      obtain ⟨r, hr, hcomplete⟩ := herror e' u hu' (hexpected ▸ he)
      exact ⟨r, hr, hcompletes hcomplete⟩
  · obtain ⟨a, ha⟩ := h.accepts Y hY
    exact ⟨a, Steps.withQuoteHint word ha⟩

theorem tableConstraint (table : ObjectName) : Viable d l closing (Parser.tableConstraint d table)
    [Face.keyword .unique, Face.symbol .leftParen, Face.filler, Face.symbol .rightParen] := by
  refine (constraintName? (l := .token) (φ := some [.keyword .unique]) (by decide)).seq
    (fun name => ?_) (by decide)
  have hunique : Viable d l closing (Parser.uniqueIndexName? >>= fun indexName =>
      Parser.columnList .unique >>= fun columns => Pure.pure
        (uniqueConstraint d table (name <|> indexName) columns))
      [Face.symbol .leftParen, Face.filler, Face.symbol .rightParen] :=
    uniqueIndexName?.seq (fun indexName => (columnList _).map _) (by decide)
  refine current_advance (Face.keyword .unique) (Face.genuine_keyword (Face.keyword?_text d rfl))
    (fun _ => rfl) (fun s hs => ?_) hunique rfl
  split
  · rename_i hk
    have hcolumns := (expectKeyword (d := d) (φ := none) .key rfl .tableConstraint).seq
      (l := l) (φ := closing) (fun _ => (columnList .primaryKey).map fun columns =>
        (⟨name.getD (Constraint.Naming.primaryKey d table), .primaryKey columns⟩ : Constraint))
      (.any _ _)
    exact .advance hs (fun _ => rfl) (Token.keyword?_ne hk).1 hcolumns
  · rename_i hk
    have hkey := (columnList (d := d) (l := .token) (φ := none) .foreignKey).seq (fun columns =>
      foreignKey (l := l) table name columns) (.any _ _)
    have hcolumns := (expectKeyword (d := d) (φ := none) .key rfl .tableConstraint).seq
      (fun _ => hkey) (.any _ _)
    exact .advance hs (fun _ => rfl) (Token.keyword?_ne hk).1 hcolumns
  · rename_i hk
    exact .advance hs (fun _ => rfl) (Token.keyword?_ne hk).1 hunique
  · rename_i hk
    refine .advance hs (fun _ => rfl) (Token.keyword?_ne hk).1 (checkBody fun body body' h => ?_)
    rw [exprOf_of_faces h, firstColumn?_of_faces h]
  · rename_i hk
    split
    · exact .advance hs (fun _ => rfl) (Token.keyword?_ne hk).1 ((withQuoteHint _ inlineIndex).map _)
    · exact .fail _ _
  · rename_i hk
    split
    · exact .advance hs (fun _ => rfl) (Token.keyword?_ne hk).1 ((withQuoteHint _ inlineIndex).map _)
    · exact .fail _ _
  · exact .fail _ _

theorem tableElement (table : ObjectName) : Viable d l closing (Parser.tableElement d table)
    [Face.filler, Face.filler] := by
  refine current (fun _ => rfl) (fun s hs => ?_) (by simpa using Face.genuine_filler d)
    (fun Y hY => ?_) ⟨.column ⟨⟨.bare "x", ⟨"X", [], [], 0⟩, false, none, false⟩, []⟩⟩
  · split
    · exact ((tableConstraint table).map _).everywhere s hs
    · exact ((columnDefinition table).map _).everywhere s hs
  · exact ((columnDefinition (l := .token) table).map _).accepts Y hY

theorem tableElements (table : ObjectName) :
    Viable d l (some [.symbol .rightParen]) (Parser.tableElements d table) [] := by
  refine present (pure []) (fun s hs => ?_) (by decide)
  exact (commaSeparated (tableElement table) (by decide) (by decide)).everywhere s hs

end Viable

section Options

variable {known : List (List String)} {name : List String}

-- What is read is the beginning of a known name.
theorem optionName_read (known : List (List String)) (name : List String) (ts : List Token) :
    ∃ read words, (optionName known name ts).1 = name ++ words ∧
      ts = read ++ (optionName known name ts).2 ∧ read.map optionWord? = words.map some ∧
      (words = [] ∨ known.any (name ++ words).isPrefixOf = true) := by
  induction ts generalizing name with
  | nil => exact ⟨[], [], by simp [optionName], rfl, rfl, .inl rfl⟩
  | cons t ts ih =>
      rw [optionName]
      split
      · rename_i word hword
        dsimp only
        split
        · rename_i hknown
          obtain ⟨read, words, hname, hread, hwords, hbegins⟩ := ih (name ++ [word])
          have happend : name ++ word :: words = name ++ [word] ++ words := by simp
          refine ⟨t :: read, word :: words, by rw [happend, hname], by rw [List.cons_append, ← hread],
            by rw [List.map_cons, List.map_cons, hword, hwords], .inr ?_⟩
          rw [happend]
          obtain rfl | hbegins := hbegins
          · rwa [List.append_nil]
          · exact hbegins
        · exact ⟨[], [], by simp, rfl, rfl, .inl rfl⟩
      · exact ⟨[], [], by simp, rfl, rfl, .inl rfl⟩

theorem not_starts_of_optionName {ts : List Token} (h : (optionName d.tableOptions [] ts).1 = []) :
    startsOption d (Face.first (ts.map Token.face)) = false := by
  cases ts with
  | nil => rfl
  | cons t ts =>
      show (optionWord? t).any (fun word => d.tableOptions.any [word].isPrefixOf) = false
      rw [optionName] at h
      split at h
      · rename_i word hword
        dsimp only at h
        split at h
        · obtain ⟨-, words, hname, -⟩ := optionName_read d.tableOptions ([] ++ [word]) ts
          rw [hname] at h
          simp at h
        · rename_i hknown
          rw [hword]
          simpa using hknown
      · rename_i hword
        rw [hword]
        rfl

-- An option begins with as many words as can belong to a name. What follows them depends on whether
-- they are one.
theorem tableOption?_cases (s : Cursor) : ∃ F words u, s.faces = F ++ u.faces ∧
    F.map (optionWord? ∘ Face.token) = words.map some ∧
    tableOption? d s =
      (if words = [] then pure none
        else if d.tableOptions.contains words then optionEnd words
        else fail .tableOption .tableOptions : Parser (Option TableOption)) u ∧
    (words = [] → F = [] ∧ startsOption d (Face.first u.faces) = false) ∧
    (words ≠ [] → d.tableOptions.any words.isPrefixOf = true) := by
  obtain ⟨read, words, hname, hread, hwords, hbegins⟩ := optionName_read d.tableOptions [] s.ahead
  rw [List.nil_append] at hname hbegins
  generalize hu : { s with ahead := (optionName d.tableOptions [] s.ahead).2 } = u
  have hfaces : s.faces = read.map Token.face ++ u.faces := by
    rw [Cursor.faces, Cursor.faces, ← List.map_append, ← hu, ← hread]
  refine ⟨read.map Token.face, words, u, hfaces, ?_, ?_, ?_, hbegins.resolve_left⟩
  · rw [List.map_map, ← hwords]
    rfl
  · rw [tableOption?_eq, ← hu, ← hname]
    rfl
  · rintro rfl
    obtain rfl := List.map_eq_nil_iff.mp hwords
    refine ⟨rfl, ?_⟩
    rw [← List.nil_append u.faces]
    exact hfaces ▸ not_starts_of_optionName hname

namespace Viable

theorem optionValue : Viable d l φ Parser.optionValue [Face.filler] := by
  have hrest (value : Ident) : Viable d l φ (Pure.pure value : Parser Ident) [] := pure value
  refine current (fun _ => rfl) (fun s hs => ?_) (by simpa using Face.genuine_filler d) (fun Y _ => ?_)
    ⟨.bare "x"⟩
  · cases hkind : s.current.kind with
    | quotedIdentifier q => exact .advance hs (fun _ => rfl) (by simp [hkind]) (hrest _)
    | identifier => exact .advance hs (fun _ => rfl) (by simp [hkind]) (hrest _)
    | keyword k => exact .advance hs (fun _ => rfl) (by simp [hkind]) (hrest _)
    | number => exact .advance hs (fun _ => rfl) (by simp [hkind]) (hrest _)
    | string => exact .advance hs (fun _ => rfl) (by simp [hkind]) (hrest _)
    | _ => exact .fail _ _
  · exact ⟨.bare "x", .advance fun t ht => by
      obtain ⟨kind, literal, span⟩ := t
      cases ht
      exact .pure _ Y⟩

theorem optionEnd (name : List String) : Viable d l ending (Parser.optionEnd name) [Face.filler] := by
  have hend (equals : Bool) (value : Ident) : Viable d l ending (Parser.consumeSymbol .comma >>=
      fun _ => Pure.pure (some (⟨" ".intercalate name, value, equals⟩ : TableOption))) [] :=
    (consume _ (by simp) (by decide)).map _
  refine (consume (l := .token) (φ := some [.identifier]) _ (by simp) (by decide)).seq
    (fun equals => ?_) (by decide)
  exact (optionValue (φ := none)).seq (hend equals) (.any _ _)

end Viable

section

variable {F : List Face} {s u : Cursor}

theorem viableAt_optionEnd (hs : Unmodified s) (hname : name ∈ d.tableOptions)
    (hF : F.map (optionWord? ∘ Face.token) = name.map some) (hfaces : s.faces = F ++ u.faces)
    (hresult : tableOption? d s = optionEnd name u) : ViableAt d .token ending (tableOption? d) s := by
  have hend := Viable.optionEnd (d := d) (l := .token) name
  obtain ⟨hok, herror⟩ := hend.everywhere u (hs.of_faces hfaces)
  have hcompletes {r : List Face} (hr : r ≠ [] → Completes d ending (optionEnd name) r) :
      Completes d ending (tableOption? d) (F ++ r) := by
    by_cases hnil : r = []
    · refine ⟨[Face.filler], hend.genuine, fun Y hY => ?_⟩
      obtain ⟨a, ha⟩ := hend.accepts Y hY
      rw [hnil, List.append_nil]
      exact ⟨a, steps_tableOption? hname hF ha⟩
    · obtain ⟨Z, hZ, hsteps⟩ := hr hnil
      refine ⟨Z, hZ, fun Y hY => ?_⟩
      obtain ⟨a, ha⟩ := hsteps Y hY
      rw [List.append_assoc]
      exact ⟨a, steps_tableOption? hname hF ha⟩
  constructor
  · intro a v h
    obtain ⟨r, hr, hcomplete, hsteps⟩ := hok a v (hresult ▸ h)
    refine ⟨F ++ r, by rw [hfaces, hr, List.append_assoc], fun _ => hcompletes hcomplete, ?_⟩
    intro Y hY
    rw [List.append_assoc]
    exact steps_tableOption? hname hF (hsteps Y hY)
  · intro e v h he
    obtain ⟨r, hr, hcomplete⟩ := herror e v (hresult ▸ h) he
    exact ⟨F ++ r, by rw [hfaces, hr, List.append_assoc], fun _ => hcompletes hcomplete⟩

-- The rest of the name, and a value.
theorem completes_optionName (hname : d.tableOptions.any name.isPrefixOf = true)
    (hF : F.map (optionWord? ∘ Face.token) = name.map some) :
    Completes d ending (tableOption? d) F := by
  obtain ⟨whole, hwhole, hbegins⟩ := List.any_eq_true.mp hname
  obtain ⟨more, rfl⟩ := List.isPrefixOf_iff_prefix.mp hbegins
  have hmore (w : String) (hw : w ∈ more) :=
    (optionWord?_of_options hwhole).2 w (List.mem_append_right name hw)
  have hend := Viable.optionEnd (d := d) (l := .token) (name ++ more)
  refine ⟨more.map (Face.read d) ++ [Face.filler], fun f hf => ?_, fun Y hY => ?_⟩
  · obtain hf | hf := List.mem_append.mp hf
    · obtain ⟨w, hw, rfl⟩ := List.mem_map.mp hf
      exact (hmore w hw).1
    · exact hend.genuine f hf
  · obtain ⟨a, ha⟩ := hend.accepts Y hY
    refine ⟨a, ?_⟩
    rw [List.append_assoc, ← List.append_assoc]
    refine steps_tableOption? hwhole ?_ ha
    rw [List.map_append, List.map_append, hF, optionWords_read fun w hw => (hmore w hw).2.2]

theorem viableAt_tableOption? (hs : Unmodified s) : ViableAt d .token ending (tableOption? d) s := by
  obtain ⟨F, words, u, hfaces, hF, hresult, hnone, hbegins⟩ := tableOption?_cases (d := d) s
  by_cases hnil : words = []
  · obtain ⟨rfl, hnot⟩ := hnone hnil
    rw [if_pos hnil] at hresult
    constructor
    · intro a v h
      rw [hresult] at h
      cases h
      exact ⟨[], hfaces, by simp, fun Y hY => steps_tableOption?_none (hY.1 ▸ hnot)⟩
    · intro e v h
      rw [hresult] at h
      cases h
  · rw [if_neg hnil] at hresult
    by_cases hcontains : d.tableOptions.contains words = true
    · rw [if_pos hcontains] at hresult
      exact viableAt_optionEnd hs (by simpa using hcontains) hF hfaces hresult
    · rw [if_neg hcontains] at hresult
      constructor
      · intro a v h
        rw [hresult] at h
        cases h
      · intro e v h _
        rw [hresult] at h
        cases h
        exact ⟨_, hfaces, fun _ => completes_optionName (hbegins hnil) hF⟩

end

namespace Viable

theorem tableOptions : Viable d l ending (Parser.tableOptions d) [] := by
  refine many (fun s hs => viableAt_tableOption? hs) (.token _ _) (fun _ _ _ _ h => h.toToken)
    fun Y hY => steps_tableOption?_none ?_
  have hkind := hY _ rfl
  simp only [List.mem_cons, List.not_mem_nil, or_false] at hkind
  rcases hkind with hkind | hkind <;> simp [startsOption, optionWord?, Face.token, hkind]

theorem createTable : Viable d l ending (Parser.createTable d)
    [Face.filler, Face.symbol .leftParen, Face.symbol .rightParen] := by
  have helements (name : ObjectName) : Viable d .token ending
      (Parser.inParens .createTable .commaOrCloseParen (Parser.tableElements d name))
      [Face.symbol .leftParen, Face.symbol .rightParen] :=
    inParens (tableElements (l := .token) name) (by decide)
  refine (ifNotExists (l := .token) (φ := some [.identifier]) _ (by decide)).seq (fun _ => ?_)
    (by decide)
  refine (objectName (l := .token) (φ := some [.symbol .leftParen]) _ (by decide)).seq
    (fun name => ?_) (by decide)
  exact (helements name).seq (fun _ => tableOptions.map _) (.refl _)

end Viable

end Options

end Parser

end SchemaDiff
