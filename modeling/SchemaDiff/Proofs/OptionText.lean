import SchemaDiff.Parser.Table
import SchemaDiff.Proofs.Name

namespace SchemaDiff

open SchemaDiff.Parser

variable {d : Dialect}

namespace Parser

-- No name of an option begins another one.
theorem tableOptions_complete {name : List String} (h : name ∈ d.tableOptions) (word : String) :
    d.tableOptions.any (name ++ [word]).isPrefixOf = false := by
  have hlength : ∀ name ∈ d.tableOptions, ∀ other ∈ d.tableOptions,
      name.isPrefixOf other = true → name.length = other.length := by
    cases d <;> decide +kernel
  rw [List.any_eq_false]
  intro other hother hbegins
  have hbegins := List.isPrefixOf_iff_prefix.mp hbegins
  have hshorter := hlength name h other hother
    (List.isPrefixOf_iff_prefix.mpr ((List.prefix_append name [word]).trans hbegins))
  have hle := hbegins.length_le
  rw [List.length_append, List.length_singleton] at hle
  omega

theorem optionName_words {known : List (List String)} {name words : List String}
    {tokens rest : List Token} (hwords : tokens.map optionWord? = words.map some)
    (hknown : name ++ words ∈ known)
    (hrest : ∀ word, known.any ((name ++ words) ++ [word]).isPrefixOf = false) :
    optionName known name (tokens ++ rest) = (name ++ words, rest) := by
  induction words generalizing name tokens with
  | nil =>
      obtain rfl := List.map_eq_nil_iff.mp hwords
      rw [List.append_nil] at hrest ⊢
      cases rest with
      | nil => rfl
      | cons t rest =>
          rw [List.nil_append, optionName]
          cases optionWord? t with
          | none => rfl
          | some word => simp only [hrest word, Bool.false_eq_true, if_false]
  | cons word words ih =>
      obtain ⟨t, tokens, rfl, hword, htail⟩ := List.map_eq_cons_iff.mp hwords
      have happend : name ++ word :: words = (name ++ [word]) ++ words := by simp
      have hbegins : known.any (name ++ [word]).isPrefixOf = true := by
        refine List.any_eq_true.mpr ⟨_, hknown, ?_⟩
        rw [happend]
        exact List.isPrefixOf_iff_prefix.mpr (List.prefix_append _ _)
      rw [happend] at hknown hrest
      rw [List.cons_append, optionName, hword, happend]
      simp only [hbegins, if_true]
      exact ih htail hknown hrest

theorem optionWord?_of_options {name : List String} (h : name ∈ d.tableOptions) :
    name ≠ [] ∧ ∀ w ∈ name, (Face.read d w).Genuine d ∧
      Token.isWordKind (Face.read d w).kind = true ∧
      optionWord? (Face.read d w).token = some w := by
  have hall : ∀ name ∈ d.tableOptions, name ≠ [] ∧ ∀ w ∈ name, Face.looksLikeWord w = true ∧
      Text.upper w = w := by
    cases d <;> decide +kernel
  obtain ⟨hne, hwords⟩ := hall name h
  refine ⟨hne, fun w hw => ?_⟩
  obtain ⟨hlooks, hupper⟩ := hwords w hw
  have hgenuine : Face.Genuine d ⟨Token.wordKind d w, w⟩ :=
    Token.genuine_of_isWord (Face.isWord_of_looks hlooks)
  have hread : Face.read d w = ⟨Token.wordKind d w, w⟩ := hgenuine.read_eq
  rw [hread]
  refine ⟨hgenuine, Token.isWordKind_wordKind d w, ?_⟩
  unfold Token.wordKind
  split <;> simp [optionWord?, Face.token, hupper]

-- The words of a name in any letter case, and with any spelling.
theorem steps_optionWords {name : List String} (h : name ∈ d.tableOptions) {F : List Face}
    (hF : F.map (optionWord? ∘ Face.token) = name.map some) (Y : List Face) :
    Steps (knownOptionName d) (F ++ Y) name Y := by
  intro s hs
  obtain ⟨tokens, rest, hsplit, rfl, hrest⟩ := List.map_eq_append_iff.mp hs
  have hwords : tokens.map optionWord? = name.map some := by
    rwa [List.map_map] at hF
  have hname : optionName d.tableOptions [] (tokens ++ rest) = (name, rest) :=
    optionName_words hwords h (tableOptions_complete h)
  refine ⟨{ s with ahead := rest }, ?_, hrest⟩
  simp only [knownOptionName, hsplit, hname]

-- Whether the name of an option begins with the word.
def startsOption (d : Dialect) (f : Face) : Bool :=
  (optionWord? f.token).any fun word => d.tableOptions.any [word].isPrefixOf

theorem optionName_of_not_starts {ts : List Token}
    (h : startsOption d (Face.first (ts.map Token.face)) = false) :
    optionName d.tableOptions [] ts = ([], ts) := by
  cases ts with
  | nil => rfl
  | cons t ts =>
      have h : (optionWord? t).any (fun word => d.tableOptions.any [word].isPrefixOf) = false := h
      rw [optionName]
      split
      · rename_i word hword
        rw [hword, Option.any_some] at h
        simp [h]
      · rfl

-- What follows the name of an option.
def optionEnd (name : List String) : Parser (Option TableOption) := do
  let equals ← consumeSymbol .equal
  let value ← optionValue
  let _ ← consumeSymbol .comma
  return some ⟨" ".intercalate name, value, equals⟩

theorem tableOption?_eq (d : Dialect) : tableOption? d = knownOptionName d >>= fun name =>
    if name = [] then pure none
    else if d.tableOptions.contains name then optionEnd name
    else fail .tableOption .tableOptions := by
  unfold tableOption?
  congr
  funext name
  cases name <;> rfl

theorem knownOptionName_eq (d : Dialect) (s : Cursor) : knownOptionName d s =
    .ok (optionName d.tableOptions [] s.ahead).1
      { s with ahead := (optionName d.tableOptions [] s.ahead).2 } := rfl

theorem steps_tableOption?_none {Y : List Face} (h : startsOption d (Face.first Y) = false) :
    Steps (tableOption? d) Y none Y := by
  rw [tableOption?_eq]
  refine .bind (a := []) (Y := Y) (fun s hs => ⟨s, ?_, hs⟩) (.pure none Y)
  rw [knownOptionName_eq, optionName_of_not_starts (by rwa [← hs] at h)]

theorem steps_tableOption? {name : List String} (hname : name ∈ d.tableOptions)
    {F X Y : List Face} {a : Option TableOption}
    (hF : F.map (optionWord? ∘ Face.token) = name.map some) (h : Steps (optionEnd name) X a Y) :
    Steps (tableOption? d) (F ++ X) a Y := by
  rw [tableOption?_eq]
  refine .bind (steps_optionWords hname hF X) ?_
  rw [if_neg (optionWord?_of_options hname).1, if_pos (by simpa using hname)]
  exact h

-- The token of a value, and the value that it is kept as.
def optionValue? (t : Token) : Option Ident :=
  match t.kind with
  | .quotedIdentifier q => some (.ofLiteral q t.literal)
  | .identifier | .keyword _ | .number | .string => some (.bare t.literal)
  | _ => none

theorem steps_optionValue {f : Face} {i : Ident} (h : optionValue? f.token = some i) (Y : List Face) :
    Steps optionValue (f :: Y) i Y := by
  refine .current fun t ht => ?_
  have hkind : t.kind = f.kind := congrArg Face.kind ht
  have hbare : Ident.bare f.literal = i →
      Steps (Parser.advance >>= fun t => pure (Ident.bare t.literal)) (f :: Y) i Y := by
    intro hi
    refine .advance fun u hu => ?_
    have hliteral : u.literal = f.literal := congrArg Face.literal hu
    rw [hliteral, hi]
    exact .pure i Y
  have hquoted : ∀ q, Ident.ofLiteral q f.literal = i →
      Steps (Parser.advance >>= fun t => pure (Ident.ofLiteral q t.literal)) (f :: Y) i Y := by
    intro q hi
    refine .advance fun u hu => ?_
    have hliteral : u.literal = f.literal := congrArg Face.literal hu
    rw [hliteral, hi]
    exact .pure i Y
  rw [hkind]
  unfold optionValue? at h
  dsimp only [Face.token] at h
  cases hk : f.kind with
  | quotedIdentifier q => exact hquoted q (by simpa [hk] using h)
  | identifier => exact hbare (by simpa [hk] using h)
  | keyword k => exact hbare (by simpa [hk] using h)
  | number => exact hbare (by simpa [hk] using h)
  | string => exact hbare (by simpa [hk] using h)
  | _ => simp [hk] at h

end Parser

-- What ends a statement: a semicolon, or the end of the text.
def EndsStatement (Y : List Face) : Prop :=
  (Face.first Y).kind = .symbol .semicolon ∨ (Face.first Y).kind = .endOfInput

-- A table option as it is written, token by token. Around the value an equals sign and a comma may
-- stand.
structure OptionText where
  words : List Face
  equals : Bool
  value : Face
  comma : Bool
deriving DecidableEq, Repr

namespace OptionText

def commaFaces (o : OptionText) : List Face :=
  if o.comma then [.symbol .comma] else []

def valueFaces (o : OptionText) : List Face :=
  if o.equals then .symbol .equal :: o.value :: o.commaFaces else o.value :: o.commaFaces

def faces (o : OptionText) : List Face :=
  o.words ++ o.valueFaces

-- The words of the name count without their letter case.
def name (o : OptionText) : List String :=
  o.words.map fun w => Text.upper w.literal

def isValueKind : TokenKind → Bool
  | .identifier | .keyword _ | .number | .string | .quotedIdentifier _ => true
  | _ => false

-- Only quotes of a name are taken off.
def ident (value : Face) : Ident :=
  match value.kind with
  | .quotedIdentifier q => .ofLiteral q value.literal
  | _ => .bare value.literal

-- What the text stands for.
def option (o : OptionText) : TableOption where
  name := " ".intercalate o.name
  value := ident o.value
  equals := o.equals

-- The words are the name of an option of the dialect, and behind them stands a value.
structure Known (d : Dialect) (o : OptionText) : Prop where
  words : ∀ w ∈ o.words, Token.isWordKind w.kind = true
  name : o.name ∈ d.tableOptions
  value : isValueKind o.value.kind = true

instance (d : Dialect) (o : OptionText) : Decidable (o.Known d) :=
  decidable_of_iff ((∀ w ∈ o.words, Token.isWordKind w.kind = true) ∧ o.name ∈ d.tableOptions ∧
    isValueKind o.value.kind = true) ⟨fun ⟨hwords, hname, hvalue⟩ => ⟨hwords, hname, hvalue⟩,
    fun h => ⟨h.words, h.name, h.value⟩⟩

theorem optionWord?_of_isWordKind {f : Face} (h : Token.isWordKind f.kind = true) :
    optionWord? f.token = some (Text.upper f.literal) := by
  obtain ⟨kind, literal⟩ := f
  cases kind <;> first | rfl | cases h

theorem optionValue?_of_isValueKind {f : Face} (h : isValueKind f.kind = true) :
    optionValue? f.token = some (ident f) := by
  obtain ⟨kind, literal⟩ := f
  cases kind <;> first | rfl | cases h

theorem optionValue?_eq_some {f : Face} {i : Ident} (h : optionValue? f.token = some i) :
    isValueKind f.kind = true ∧ ident f = i := by
  obtain ⟨kind, literal⟩ := f
  cases kind <;> first | exact ⟨rfl, Option.some.inj h⟩ | cases h

variable {o : OptionText} {Y : List Face}

namespace Known

theorem words_read (h : o.Known d) :
    o.words.map (optionWord? ∘ Face.token) = o.name.map some := by
  rw [OptionText.name, List.map_map]
  exact List.map_congr_left fun w hw => optionWord?_of_isWordKind (h.words w hw)

theorem exists_word (h : o.Known d) : ∃ w X, o.faces = w :: X ∧ Token.isWordKind w.kind = true := by
  obtain ⟨words, equals, value, comma⟩ := o
  cases words with
  | nil => exact absurd rfl (optionWord?_of_options h.name).1
  | cons w words => exact ⟨w, _, rfl, h.words w (by simp)⟩

theorem faces_ne_nil (h : o.Known d) : o.faces ≠ [] := by
  obtain ⟨w, X, hfaces, -⟩ := h.exists_word
  simp [hfaces]

theorem first_ne_comma (h : o.Known d) (Y : List Face) :
    (Face.first (o.faces ++ Y)).kind ≠ .symbol .comma := by
  obtain ⟨w, X, hfaces, hword⟩ := h.exists_word
  rw [hfaces]
  intro hcomma
  have hw : w.kind = .symbol .comma := hcomma
  rw [hw] at hword
  cases hword

theorem steps_end (h : o.Known d) (hY : (Face.first Y).kind ≠ .symbol .comma) :
    Steps (optionEnd o.name) (o.valueFaces ++ Y) (some o.option) Y := by
  have hnotEqual : o.value.kind ≠ .symbol .equal := by
    intro hequal
    have hvalue := h.value
    rw [hequal] at hvalue
    cases hvalue
  have hcomma : ∃ found, Steps (consumeSymbol .comma) (o.commaFaces ++ Y) found Y := by
    unfold commaFaces
    cases o.comma with
    | true => exact ⟨true, .consume_true rfl⟩
    | false => exact ⟨false, .consume_false hY⟩
  obtain ⟨found, hcomma⟩ := hcomma
  have hvalue := steps_optionValue (optionValue?_of_isValueKind h.value) (o.commaFaces ++ Y)
  unfold valueFaces option
  cases o.equals with
  | true => exact .bind (.consume_true rfl) (.bind hvalue (.bind hcomma (.pure _ Y)))
  | false => exact .bind (.consume_false hnotEqual) (.bind hvalue (.bind hcomma (.pure _ Y)))

-- The words are read as far as the name goes, because no name begins another one.
theorem steps (h : o.Known d) (hY : (Face.first Y).kind ≠ .symbol .comma) :
    Steps (tableOption? d) (o.faces ++ Y) (some o.option) Y := by
  rw [faces, List.append_assoc]
  exact steps_tableOption? h.name h.words_read (h.steps_end hY)

end Known

theorem not_starts_of_ends (h : EndsStatement Y) : startsOption d (Face.first Y) = false := by
  rcases h with h | h <;> simp [startsOption, optionWord?, Face.token, h]

theorem steps_tableOptions {written : List OptionText} (h : ∀ o ∈ written, o.Known d)
    (hY : EndsStatement Y) :
    Steps (tableOptions d) (written.flatMap faces ++ Y) (written.map option) Y := by
  refine .many_map (fun Z => (Face.first Z).kind ≠ .symbol .comma) (fun o ho Z hZ => (h o ho).steps hZ)
    (fun o ho => (h o ho).faces_ne_nil) (fun o ho Z => (h o ho).first_ne_comma Z)
    (steps_tableOption?_none (not_starts_of_ends hY)) ?_
  rcases hY with hY | hY <;> simp [hY]

end OptionText

end SchemaDiff
