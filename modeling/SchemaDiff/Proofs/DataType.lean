import SchemaDiff.Parser.Column
import SchemaDiff.Proofs.Name

namespace SchemaDiff

open SchemaDiff.Parser

variable {d : Dialect}

-- The first token of a text has what its own first token has, or the one behind it.
theorem Face.forall_first {P : Face → Prop} {X Y : List Face} (hX : ∀ f ∈ X.head?, P f)
    (hY : P (first Y)) : P (first (X ++ Y)) := by
  cases X with
  | nil => exact hY
  | cons f X => exact hX f rfl

theorem Face.isWord_word {text : String} : (word text).token.isWord text = true := by
  simp [Token.isWord, token, word]

theorem Token.isWord_eq_false {t : Token} (h : t.kind ≠ .identifier) (word : String) :
    t.isWord word = false := by
  simp [Token.isWord, h]

namespace DataType

-- The first word of a type, as it is kept.
structure FirstWord (d : Dialect) (text : String) : Prop where
  genuine : (Face.read d text).Genuine d
  read : typeWord? (Face.read d text).token = some text

theorem firstWord_of_token {t : Token} {text : String} (h : t.face.Genuine d)
    (ht : typeWord? t = some text) : FirstWord d text := by
  have hupper : Token.isWordKind t.kind = true → text = Text.upper t.literal →
      Face.read d text = ⟨t.kind, text⟩ ∧ (Face.read d text).Genuine d := by
    rintro hk rfl
    obtain ⟨hword, hkind⟩ := Token.isWord_of_genuine h hk
    have hg : Face.Genuine d ⟨Token.wordKind d (Text.upper t.literal), Text.upper t.literal⟩ :=
      Token.genuine_of_isWord hword.upper
    have hsame : Token.wordKind d (Text.upper t.literal) = t.kind := by
      rw [Token.wordKind_upper]
      exact hkind.symm
    rw [hsame] at hg
    have hread : Face.read d (Text.upper t.literal) = ⟨t.kind, Text.upper t.literal⟩ := hg.read_eq
    exact ⟨hread, hread ▸ hg⟩
  cases hk : t.kind with
  | quotedIdentifier q =>
      obtain rfl : t.literal = text := by simpa [typeWord?, hk] using ht
      have hread : Face.read d t.literal = t.face := h.read_eq
      exact ⟨hread ▸ h, by rw [hread]; exact ht⟩
  | identifier =>
      obtain rfl : Text.upper t.literal = text := by simpa [typeWord?, hk] using ht
      obtain ⟨hread, hg⟩ := hupper (by rw [hk]; rfl) rfl
      refine ⟨hg, ?_⟩
      rw [hread]
      simp [typeWord?, Face.token, hk, Text.upper_upper]
  | keyword k =>
      have hr : k.isReserved = false := by
        by_contra hr
        simp [typeWord?, hk, hr] at ht
      obtain rfl : Text.upper t.literal = text := by simpa [typeWord?, hk, hr] using ht
      obtain ⟨hread, hg⟩ := hupper (by rw [hk]; rfl) rfl
      refine ⟨hg, ?_⟩
      rw [hread]
      simp [typeWord?, Face.token, hk, hr, Text.upper_upper]
  | _ => simp [typeWord?, hk] at ht

theorem FirstWord.isNameKind {text : String} (h : FirstWord d text) :
    Token.isNameKind (Face.read d text).kind = true := by
  have hread := h.read
  unfold typeWord? at hread
  cases hk : (Face.read d text).token.kind with
  | quotedIdentifier q => exact congrArg Token.isNameKind hk
  | identifier => exact congrArg Token.isNameKind hk
  | keyword k =>
      have hkind : Token.isNameKind (Face.read d text).kind = !k.isReserved :=
        congrArg Token.isNameKind hk
      rw [hk] at hread
      rw [hkind]
      by_cases hr : k.isReserved = true
      · simp [hr] at hread
      · simpa using hr
  | _ =>
      rw [hk] at hread
      cases hread

-- The parts of a type name: a first word, perhaps a name in the schema that the word is, and
-- perhaps a second word.
structure NameParts where
  first : String
  part : Option Ident
  second : Option String

namespace NameParts

def qualified (n : NameParts) : String :=
  n.first ++ n.part.elim "" ("." ++ ·.raw)

def text (n : NameParts) : String :=
  n.qualified ++ n.second.elim "" (" " ++ ·)

def faces (d : Dialect) (n : NameParts) : List Face :=
  .read d n.first :: (n.part.elim [] (fun part => [.symbol .dot, part.face d]) ++
    n.second.elim [] fun word => [.word word])

structure Readable (d : Dialect) (n : NameParts) : Prop where
  first : FirstWord d n.first
  part : ∀ i ∈ n.part, i.Readable d
  second : ∀ word ∈ n.second, secondTypeWord? n.qualified = some word

-- What may stand behind a type name.
def Follows (Y : List Face) : Prop :=
  (Face.first Y).kind ≠ .symbol .dot ∧
    ∀ word ∈ ["PRECISION", "VARYING"], (Face.first Y).token.isWord word = false

theorem secondTypeWord?_mem {name word : String} (h : secondTypeWord? name = some word) :
    word ∈ ["PRECISION", "VARYING"] := by
  unfold secondTypeWord? at h
  split_ifs at h <;> cases h <;> decide

theorem genuine_second {word : String} (h : word ∈ ["PRECISION", "VARYING"]) :
    (Face.word word).Genuine d := by
  have hword : ∀ word ∈ ["PRECISION", "VARYING"], Face.looksLikeWord word = true ∧
      d.keyword? word = none := by
    cases d <;> decide +kernel
  exact Face.genuine_word (Face.isWord_of_looks (hword word h).1) (hword word h).2

theorem steps_qualifiedTypeWord {n : NameParts} (h : n.Readable d) {Y : List Face}
    (hY : n.part = none → (Face.first Y).kind ≠ .symbol .dot) :
    Steps qualifiedTypeWord (.read d n.first ::
      (n.part.elim [] (fun part => [.symbol .dot, part.face d]) ++ Y)) n.qualified Y := by
  refine .current fun t ht => ?_
  have hword : typeWord? t = some n.first := by
    have hface : typeWord? t = typeWord? t.face.token := rfl
    rw [hface, ht]
    exact h.first.read
  rw [hword]
  refine .advance fun _ _ => ?_
  rcases n with ⟨first, _ | part, second⟩
  · refine .bind (.consume_false (hY rfl)) ?_
    simpa [qualified] using Steps.pure first Y
  · refine .bind (.consume_true rfl) (.bind (steps_ident (h.part part rfl) _ Y) ?_)
    simpa [qualified, String.append_assoc] using Steps.pure (first ++ ("." ++ part.raw)) Y

theorem Readable.steps {n : NameParts} (h : n.Readable d) {Y : List Face} (hY : Follows Y) :
    Steps typeName (n.faces d ++ Y) n.text Y := by
  have hqualified := steps_qualifiedTypeWord h
    (Y := n.second.elim [] (fun word => [.word word]) ++ Y) fun _ => by
      cases n.second with
      | none => exact hY.1
      | some word => simp [Face.word]
  have hfaces : n.faces d ++ Y = .read d n.first ::
      (n.part.elim [] (fun part => [.symbol .dot, part.face d]) ++
        (n.second.elim [] (fun word => [.word word]) ++ Y)) := by
    rw [faces, List.cons_append, List.append_assoc]
  rw [hfaces]
  refine .bind hqualified ?_
  cases hs : n.second with
  | some word =>
      have htext : n.text = n.qualified ++ " " ++ word := by
        simp [text, hs, String.append_assoc]
      rw [h.second word hs, htext]
      have hword : (Face.first (Face.word word :: Y)).token.isWord word = true := Face.isWord_word
      refine .bind .checkWord ?_
      simp only [Option.elim_some, List.cons_append, List.nil_append, hword, if_true]
      exact .advance fun _ _ => .pure _ Y
  | none =>
      have htext : n.text = n.qualified := by simp [text, hs]
      rw [htext]
      cases hsecond : secondTypeWord? n.qualified with
      | none => exact .pure _ Y
      | some word =>
          refine .bind .checkWord ?_
          simp only [Option.elim_none, List.nil_append,
            hY.2 word (secondTypeWord?_mem hsecond), Bool.false_eq_true, if_false]
          exact .pure _ Y

theorem Readable.prints {n : NameParts} (h : n.Readable d) : Prints d n.text (n.faces d) := by
  have hsecond : Prints d (n.second.elim "" (" " ++ ·))
      (n.second.elim [] fun word => [.word word]) ∧ Separates (n.second.elim "" (" " ++ ·)) := by
    cases hs : n.second with
    | none => exact ⟨.empty, separates_empty⟩
    | some word =>
        have hword := genuine_second (d := d) (secondTypeWord?_mem (h.second word hs))
        exact ⟨(Prints.face hword).space, separates_space word⟩
  have hfirst : Prints d n.qualified (.read d n.first ::
      n.part.elim [] fun part => [.symbol .dot, part.face d]) := by
    cases hp : n.part with
    | none =>
        simp only [qualified, hp, Option.elim_none, String.append_empty]
        simpa using Prints.face h.first.genuine
    | some part =>
        simp only [qualified, hp, Option.elim_some]
        have hdotted := Prints.dotted h.first.genuine h.first.isNameKind (h.part part hp)
        simpa using hdotted
  exact hfirst.append hsecond.1 hsecond.2

theorem yields_qualifiedTypeWord : Yields d qualifiedTypeWord fun name =>
    ∃ n : NameParts, n.Readable d ∧ n.second = none ∧ n.qualified = name := by
  refine .current fun t ht => ?_
  cases hword : typeWord? t with
  | none => exact .of .fail
  | some first =>
      have hgenuine : t.face.Genuine d := by
        refine ht ?_ ?_ <;>
        · intro hk
          simp [typeWord?, hk] at hword
      have hfirst := firstWord_of_token hgenuine hword
      refine .advance (.bind .consume fun dotted _ => ?_)
      cases dotted with
      | true =>
          refine .bind yields_ident fun part hpart => .pure ⟨⟨first, some part, none⟩, ?_, rfl, ?_⟩
          · exact ⟨hfirst, by simpa using hpart, by simp⟩
          · simp [qualified, String.append_assoc]
      | false => exact .pure ⟨⟨first, none, none⟩, ⟨hfirst, by simp, by simp⟩, rfl, by simp [qualified]⟩

theorem yields_typeName :
    Yields d typeName fun name => ∃ n : NameParts, n.Readable d ∧ n.text = name := by
  refine .bind yields_qualifiedTypeWord fun name hname => ?_
  obtain ⟨n, hn, hnone, rfl⟩ := hname
  have htext : n.text = n.qualified := by simp [text, hnone]
  cases hsecond : secondTypeWord? n.qualified with
  | none => exact .pure ⟨n, hn, htext⟩
  | some second =>
      refine .bind .checkWord fun found _ => ?_
      cases found with
      | true =>
          refine .advance fun _ => .pure ⟨{ n with second := some second }, ⟨hn.first, hn.part, ?_⟩, ?_⟩
          · intro word hword
            obtain rfl : second = word := by simpa using hword
            exact hsecond
          · simp [text, qualified, String.append_assoc]
      | false => exact .pure ⟨n, hn, htext⟩

end NameParts

-- A parameter of a type is a token that is kept as it is written.
structure Param (d : Dialect) (i : Ident) : Prop where
  genuine : (i.face d).Genuine d
  kind : (i.face d).kind ∈ [TokenKind.number, .string, .identifier]
  bare : Ident.bare (i.face d).literal = i

def paramFaces (d : Dialect) (params : List Ident) : List Face :=
  if params.isEmpty then []
  else .symbol .leftParen :: (Face.separated (fun i => [i.face d]) params ++ [.symbol .rightParen])

def paramText (params : List Ident) : String :=
  if params.isEmpty then "" else "(" ++ ", ".intercalate (params.map Ident.raw) ++ ")"

theorem yields_typeParam : Yields d typeParam (Param d) := by
  refine .current fun t ht => ?_
  have hparam : t.kind ∈ [TokenKind.number, .string, .identifier] →
      Param d (.bare t.literal) := by
    intro hk
    have hgenuine : t.face.Genuine d := by
      refine ht ?_ ?_ <;>
      · intro h
        simp [h] at hk
    have hface : (Ident.bare t.literal).face d = t.face := hgenuine.read_eq
    exact ⟨hface ▸ hgenuine, by rw [hface]; exact hk, by rw [hface]; rfl⟩
  cases hk : t.kind <;> try exact .of .fail
  all_goals exact .advance (.pure (hparam (by simp [hk])))

theorem steps_typeParam {i : Ident} (h : Param d i) (Y : List Face) :
    Steps typeParam (i.face d :: Y) i Y := by
  refine .current fun t ht => ?_
  have hkind : t.kind = (i.face d).kind := congrArg Face.kind ht
  have hread : Steps (Parser.advance >>= fun t => pure (Ident.bare t.literal)) (i.face d :: Y) i Y := by
    refine .advance fun u hu => ?_
    have hliteral : u.literal = (i.face d).literal := congrArg Face.literal hu
    rw [hliteral, h.bare]
    exact .pure i Y
  have hk := h.kind
  rw [← hkind] at hk
  simp only [List.mem_cons, List.not_mem_nil, or_false] at hk
  rcases hk with hk | hk | hk <;> simpa only [hk] using hread

theorem yields_typeParams : Yields d typeParams fun params => ∀ i ∈ params, Param d i := by
  refine .bind .check fun found _ => ?_
  cases found with
  | true => exact .inParens ((Yields.commaSeparated yields_typeParam).mono fun _ h => h.2)
  | false => exact .pure (by simp)

theorem steps_typeParams {params : List Ident} (h : ∀ i ∈ params, Param d i) {Y : List Face}
    (hY : (Face.first Y).kind ≠ .symbol .leftParen) :
    Steps typeParams (paramFaces d params ++ Y) params Y := by
  refine .bind (.check _) ?_
  cases params with
  | nil =>
      have hnone : ((Face.first Y).kind == .symbol .leftParen) = false := beq_false_of_ne hY
      simp only [paramFaces, List.isEmpty_nil, if_true, List.nil_append, hnone]
      exact .pure [] Y
  | cons i params =>
      simp only [paramFaces, List.isEmpty_cons, Bool.false_eq_true, if_false, List.cons_append,
        List.append_assoc]
      refine .inParens (r := .symbol .rightParen) rfl rfl ?_
      exact .commaSeparated (fun _ => True) (by simp)
        (fun i hi Y _ => steps_typeParam (h i hi) Y) (by simp) trivial (by simp [Face.symbol])

theorem prints_params {params : List Ident} (h : ∀ i ∈ params, Param d i) :
    Prints d (paramText params) (paramFaces d params) ∧ Separates (paramText params) := by
  cases params with
  | nil => exact ⟨.empty, separates_empty⟩
  | cons i params =>
      have hitems : Prints d (", ".intercalate ((i :: params).map Ident.raw))
          (Face.separated (fun i => [i.face d]) (i :: params)) := by
        refine .separated fun i hi => ?_
        have hp := Prints.face (h i hi).genuine
        rwa [Ident.face_literal] at hp
      have hclosed : Prints d ")" [.symbol .rightParen] := Prints.empty.rightParen
      have hall := (hitems.append hclosed (separates_of_head (c := ')') rfl (by decide))).leftParen
      have htext : paramText (i :: params) =
          "(" ++ (", ".intercalate ((i :: params).map Ident.raw) ++ ")") := by
        simp [paramText, String.append_assoc]
      rw [htext]
      exact ⟨hall, separates_of_head (c := '(') (by simp) (by decide)⟩

-- `WITH` or `WITHOUT` opens the words about a time zone.
def Zone (name : String) (zone : Option String) : Prop :=
  ∀ word ∈ zone, name ∈ ["TIME", "TIMESTAMP"] ∧ word ∈ ["WITH", "WITHOUT"]

def zoneWords (zone : Option String) : List String :=
  zone.elim [] fun word => [word ++ " TIME ZONE"]

def zoneFaces (zone : Option String) : List Face :=
  zone.elim [] fun word => [.word word, .word "TIME", .word "ZONE"]

theorem isWord_of_upper {t : Token} {word : String} (h : t.isWord word = true) :
    Text.upper t.literal = Text.upper word := by
  simp only [Token.isWord, Bool.and_eq_true, beq_iff_eq] at h
  exact h.2

theorem yields_timeZone {name : String} :
    Yields d (timeZone name) fun words => ∃ zone, Zone name zone ∧ words = zoneWords zone := by
  refine .current fun t _ => ?_
  split
  · rename_i h
    simp only [Bool.and_eq_true, Bool.or_eq_true, List.contains_eq_mem, decide_eq_true_eq] at h
    obtain ⟨hname, hword⟩ := h
    have hupper : Text.upper t.literal ∈ ["WITH", "WITHOUT"] := by
      rcases hword with hword | hword
      · rw [isWord_of_upper hword]
        decide
      · rw [isWord_of_upper hword]
        decide
    refine .advance (.bind .expectWord fun _ _ => .bind .expectWord fun _ _ => .pure ?_)
    exact ⟨some (Text.upper t.literal), by
      simpa only [Zone, Option.mem_some_iff, forall_eq'] using ⟨hname, hupper⟩, rfl⟩
  · exact .of (.pure ⟨none, by simp [Zone], rfl⟩)

theorem steps_timeZone {name : String} {zone : Option String} (h : Zone name zone) {Y : List Face}
    (hY : (Face.first Y).token.isWord "WITH" = false ∧ (Face.first Y).token.isWord "WITHOUT" = false) :
    Steps (timeZone name) (zoneFaces zone ++ Y) (zoneWords zone) Y := by
  refine .current fun t ht => ?_
  have hsame : ∀ word, t.isWord word = t.face.token.isWord word := fun _ => rfl
  cases zone with
  | none =>
      have hfirst : Face.first (zoneFaces none ++ Y) = Face.first Y := rfl
      rw [if_neg (by rw [hsame, hsame, ht, hfirst, hY.1, hY.2]; simp)]
      exact .pure [] Y
  | some word =>
      obtain ⟨hname, hword⟩ := h word rfl
      have hopens : ∀ word ∈ ["WITH", "WITHOUT"], ((Face.word word).token.isWord "WITH" ||
          (Face.word word).token.isWord "WITHOUT") = true ∧ Text.upper word = word := by
        decide
      have hface : t.face = Face.word word := ht
      have hliteral : t.literal = word := congrArg Face.literal hface
      rw [if_pos (by
        rw [hsame, hsame, hface, (hopens word hword).1, Bool.and_true]
        simpa using hname)]
      refine .advance fun _ _ => .bind (.expectWord Face.isWord_word)
        (.bind (.expectWord Face.isWord_word) ?_)
      rw [hliteral, (hopens word hword).2]
      exact .pure _ Y

theorem genuine_zone {word : String} (h : word ∈ ["WITH", "WITHOUT", "TIME", "ZONE"]) :
    (Face.word word).Genuine d := by
  have hword : ∀ word ∈ ["WITH", "WITHOUT", "TIME", "ZONE"], Face.looksLikeWord word = true ∧
      d.keyword? word = none := by
    cases d <;> decide +kernel
  exact Face.genuine_word (Face.isWord_of_looks (hword word h).1) (hword word h).2

theorem prints_zone {name : String} {zone : Option String} (h : Zone name zone) :
    Prints d (String.join ((zoneWords zone).map (" " ++ ·))) (zoneFaces zone) ∧
      Separates (String.join ((zoneWords zone).map (" " ++ ·))) := by
  cases zone with
  | none => exact ⟨.empty, separates_empty⟩
  | some word =>
      have hgenuine : (Face.word word).Genuine d := genuine_zone (by
        have hmem := (h word rfl).2
        simp only [List.mem_cons, List.not_mem_nil, or_false] at hmem ⊢
        tauto)
      have hzone : Prints d (" " ++ "ZONE") [Face.word "ZONE"] :=
        (Prints.face (f := .word "ZONE") (genuine_zone (by decide))).space
      have htime := (Prints.face (f := .word "TIME") (genuine_zone (d := d) (by decide))).append hzone
        (separates_space _)
      have hall := ((Prints.face hgenuine).append htime.space (separates_space _)).space
      have htext : String.join ((zoneWords (some word)).map (" " ++ ·)) =
          " " ++ ((Face.word word).literal ++
            (" " ++ ((Face.word "TIME").literal ++ (" " ++ "ZONE")))) := by
        simp [zoneWords, Face.word]
      rw [htext]
      exact ⟨hall, separates_space _⟩

theorem yields_typeSuffix? : Yields d (typeSuffix? d) fun o => ∀ word ∈ o, word ∈ d.typeSuffixes := by
  refine .current fun t _ => ?_
  cases hfind : d.typeSuffixes.find? t.isWord with
  | none => exact .of (.pure (by simp))
  | some word => exact .advance (.pure (by simpa using List.mem_of_find?_eq_some hfind))

theorem steps_typeSuffixes {words : List String} (h : ∀ word ∈ words, word ∈ d.typeSuffixes)
    {Y : List Face} (hY : (Face.first Y).kind ≠ .identifier) :
    Steps (many (typeSuffix? d)) (words.flatMap (fun word => [Face.word word]) ++ Y) words Y := by
  refine .many (fun _ => True) (fun word hword Y _ => ?_) (by simp) (by simp) ?_ trivial
  · have hfind : ∀ word ∈ d.typeSuffixes,
        d.typeSuffixes.find? (Face.word word).token.isWord = some word := by
      cases d <;> decide +kernel
    refine .current fun t ht => ?_
    have hsame : t.isWord = (Face.word word).token.isWord := by
      have hface : t.face = Face.word word := ht
      rw [← hface]
      rfl
    rw [hsame, hfind word (h word hword)]
    exact .advance fun _ _ => .pure _ Y
  · refine .current fun t ht => ?_
    have hkind : t.kind ≠ .identifier := by
      have hface : t.kind = (Face.first Y).kind := congrArg Face.kind ht
      rwa [hface]
    have hnone : d.typeSuffixes.find? t.isWord = none := by
      refine List.find?_eq_none.mpr fun word _ => ?_
      rw [Token.isWord_eq_false hkind]
      exact Bool.false_ne_true
    rw [hnone]
    exact .pure none Y

theorem prints_typeSuffixes {words : List String} (h : ∀ word ∈ words, word ∈ d.typeSuffixes) :
    Prints d (String.join (words.map (" " ++ ·))) (words.flatMap fun word => [Face.word word]) ∧
      Separates (String.join (words.map (" " ++ ·))) := by
  have hwords : ∀ word ∈ d.typeSuffixes, Face.looksLikeWord word = true ∧
      d.keyword? word = none := by
    cases d <;> decide +kernel
  refine Prints.join fun word hword => ⟨?_, separates_space word⟩
  have hlooks := hwords word (h word hword)
  exact (Prints.face (Face.genuine_word (Face.isWord_of_looks hlooks.1) hlooks.2)).space

def dimFaces (dims : Nat) : List Face :=
  (List.replicate dims ()).flatMap fun _ => [.symbol .leftBracket, .symbol .rightBracket]

theorem steps_arrayDim? (Y : List Face) :
    Steps arrayDim? ([.symbol .leftBracket, .symbol .rightBracket] ++ Y) (some ()) Y :=
  .bind (.consume_true rfl) (.bind (.consume_false (by simp [Face.symbol]))
    (.bind (.expectSymbol rfl) (.pure _ Y)))

theorem steps_arrayDims {dims : Nat} (h : d.hasArrayTypes = false → dims = 0) {Y : List Face}
    (hY : (Face.first Y).kind ≠ .symbol .leftBracket) :
    Steps (Parser.arrayDims d) (dimFaces dims ++ Y) (List.replicate dims ()) Y := by
  cases hd : d.hasArrayTypes with
  | false =>
      obtain rfl := h hd
      simp only [Parser.arrayDims, hd]
      exact .pure [] Y
  | true =>
      simp only [Parser.arrayDims, hd]
      exact .many (fun _ => True) (fun _ _ Y _ => steps_arrayDim? Y) (by simp) (by simp)
        (.bind (.consume_false hY) (.pure none Y)) trivial

theorem yields_arrayDims :
    Yields d (Parser.arrayDims d) fun dims => d.hasArrayTypes = false → dims.length = 0 := by
  cases hd : d.hasArrayTypes with
  | false =>
      simp only [Parser.arrayDims, hd]
      exact .pure fun _ => rfl
  | true =>
      simp only [Parser.arrayDims, hd]
      refine (Yields.many (P := fun _ => True) ?_).mono (by simp)
      refine .bind .consume fun found _ => ?_
      cases found with
      | true => exact .bind .consume fun _ _ => .bind .expectSymbol fun _ _ => .pure (by simp)
      | false => exact .pure (by simp)

theorem prints_dims (dims : Nat) :
    Prints d (String.join (List.replicate dims "[]")) (dimFaces dims) ∧
      Separates (String.join (List.replicate dims "[]")) := by
  have hsymbols := Prints.symbol (d := d) (s := .leftBracket) (by decide)
    (.symbol (s := .rightBracket) (by decide) .empty)
  have hone : Prints d "[]" [.symbol .leftBracket, .symbol .rightBracket] := hsymbols
  have hall : Prints d (String.join ((List.replicate dims ()).map fun _ => "[]"))
        (dimFaces dims) ∧ Separates (String.join ((List.replicate dims ()).map fun _ => "[]")) :=
    Prints.join fun _ _ => ⟨hone, separates_of_head (c := '[') (by simp) (by decide)⟩
  rwa [List.map_replicate] at hall

-- The type can be read again from its text.
structure Readable (d : Dialect) (t : DataType) : Prop where
  name : ∃ n : NameParts, n.Readable d ∧ n.text = t.name
  params : ∀ i ∈ t.params, Param d i
  suffixes : ∃ zone words, Zone t.name zone ∧ (∀ word ∈ words, word ∈ d.typeSuffixes) ∧
    t.suffixes = zoneWords zone ++ words
  dims : d.hasArrayTypes = false → t.arrayDims = 0

theorem yields_dataType : Yields d (dataType d) (Readable d) := by
  refine .bind NameParts.yields_typeName fun name hname => .bind yields_typeParams fun params hparams =>
    .bind yields_timeZone fun zone hzone => .bind (.many yields_typeSuffix?) fun words hwords =>
    .bind yields_arrayDims fun dims hdims => .pure ?_
  obtain ⟨z, hz, rfl⟩ := hzone
  exact ⟨hname, hparams, ⟨z, words, hz, hwords, rfl⟩, hdims⟩

-- What may stand behind a type.
def Follows (Y : List Face) : Prop :=
  (Face.first Y).kind ∉ [TokenKind.identifier, .symbol .dot, .symbol .leftParen, .symbol .leftBracket]

def faces (d : Dialect) (t : DataType) : List Face :=
  (Cursor.ofText d t.sql).faces

-- The parts behind the name of a type begin with brackets, or with words of their own.
def NoPart (words : List String) (f : Face) : Prop :=
  f.kind ≠ .symbol .dot ∧ f.kind ≠ .symbol .leftParen ∧
    ∀ word ∈ words, f.token.isWord word = false

theorem noPart_of_kind {words : List String} {f : Face} (hident : f.kind ≠ .identifier)
    (hdot : f.kind ≠ .symbol .dot) (hparen : f.kind ≠ .symbol .leftParen) : NoPart words f :=
  ⟨hdot, hparen, fun _ _ => Token.isWord_eq_false hident _⟩

theorem noPart_of_word {words : List String} {word : String}
    (h : ∀ other ∈ words, (Face.word word).token.isWord other = false) :
    NoPart words (.word word) :=
  ⟨by simp [Face.word], by simp [Face.word], h⟩

theorem noPart_dims {words : List String} {dims : Nat} {Y : List Face} (hY : Follows Y) :
    NoPart words (Face.first (dimFaces dims ++ Y)) := by
  simp only [Follows, List.mem_cons, List.not_mem_nil, or_false, not_or] at hY
  obtain ⟨hident, hdot, hparen, -⟩ := hY
  refine Face.forall_first (fun f hf => ?_) (noPart_of_kind hident hdot hparen)
  cases dims with
  | zero => simp [dimFaces] at hf
  | succ n =>
      obtain rfl : Face.symbol .leftBracket = f := by simpa [dimFaces, List.replicate_succ] using hf
      exact noPart_of_kind (by simp [Face.symbol]) (by simp [Face.symbol]) (by simp [Face.symbol])

theorem noPart_suffixes {words : List String} (h : ∀ word ∈ words, word ∈ d.typeSuffixes)
    {Y : List Face} (hY : NoPart ["WITH", "WITHOUT", "PRECISION", "VARYING"] (Face.first Y)) :
    NoPart ["WITH", "WITHOUT", "PRECISION", "VARYING"]
      (Face.first (words.flatMap (fun word => [Face.word word]) ++ Y)) := by
  have hother : ∀ word ∈ d.typeSuffixes, ∀ other ∈ ["WITH", "WITHOUT", "PRECISION", "VARYING"],
      (Face.word word).token.isWord other = false := by
    cases d <;> decide +kernel
  refine Face.forall_first (fun f hf => ?_) hY
  cases words with
  | nil => simp at hf
  | cons word words =>
      obtain rfl : Face.word word = f := by simpa using hf
      exact noPart_of_word (hother word (h word (by simp)))

theorem noPart_zone {name : String} {zone : Option String} (h : Zone name zone) {Y : List Face}
    (hY : NoPart ["WITH", "WITHOUT", "PRECISION", "VARYING"] (Face.first Y)) :
    NoPart ["PRECISION", "VARYING"] (Face.first (zoneFaces zone ++ Y)) := by
  have hother : ∀ word ∈ ["WITH", "WITHOUT"], ∀ other ∈ ["PRECISION", "VARYING"],
      (Face.word word).token.isWord other = false := by
    decide +kernel
  refine Face.forall_first (fun f hf => ?_) ⟨hY.1, hY.2.1, fun word hword => hY.2.2 word ?_⟩
  · cases zone with
    | none => simp [zoneFaces] at hf
    | some word =>
        obtain rfl : Face.word word = f := by simpa [zoneFaces] using hf
        exact noPart_of_word (hother word (h word rfl).2)
  · simp only [List.mem_cons, List.not_mem_nil, or_false] at hword ⊢
    tauto

theorem follows_params (params : List Ident) {Y : List Face}
    (hY : NoPart ["PRECISION", "VARYING"] (Face.first Y)) :
    NameParts.Follows (paramFaces d params ++ Y) := by
  refine Face.forall_first (P := fun f => f.kind ≠ .symbol .dot ∧
    ∀ word ∈ ["PRECISION", "VARYING"], f.token.isWord word = false) (fun f hf => ?_) ⟨hY.1, hY.2.2⟩
  cases params with
  | nil => simp [paramFaces] at hf
  | cons i params =>
      obtain rfl : Face.symbol .leftParen = f := by simpa [paramFaces] using hf
      exact ⟨by simp [Face.symbol], fun word _ =>
        Token.isWord_eq_false (by simp [Face.token, Face.symbol]) word⟩

-- What is printed behind the parameters of a type.
def tailFaces (zone : Option String) (words : List String) (dims : Nat) : List Face :=
  zoneFaces zone ++ (words.flatMap (fun word => [Face.word word]) ++ dimFaces dims)

-- The parts that the name and the suffixes of a type are made of.
structure Parts (d : Dialect) (t : DataType) (n : NameParts) (zone : Option String)
    (words : List String) : Prop where
  name : n.Readable d
  text : n.text = t.name
  known : Zone t.name zone ∧ ∀ word ∈ words, word ∈ d.typeSuffixes
  suffixes : t.suffixes = zoneWords zone ++ words

theorem Readable.exists_parts {t : DataType} (h : t.Readable d) :
    ∃ n zone words, Parts d t n zone words := by
  obtain ⟨n, hn, hname⟩ := h.name
  obtain ⟨zone, words, hzone, hwords, hsuffixes⟩ := h.suffixes
  exact ⟨n, zone, words, hn, hname, ⟨hzone, hwords⟩, hsuffixes⟩

section Parts

variable {t : DataType} {n : NameParts} {zone : Option String} {words : List String}

theorem Parts.sql_eq (h : Parts d t n zone words) : t.sql = n.text ++ (paramText t.params ++
    (String.join ((zoneWords zone).map (" " ++ ·)) ++ (String.join (words.map (" " ++ ·)) ++
      String.join (List.replicate t.arrayDims "[]")))) := by
  rw [sql, ← h.text, h.suffixes, List.map_append, String.join_append]
  simp only [paramText, String.append_assoc]

theorem Parts.prints (h : Parts d t n zone words) (hparams : ∀ i ∈ t.params, Param d i) :
    Prints d t.sql (n.faces d ++ (paramFaces d t.params ++ tailFaces zone words t.arrayDims)) := by
  have hdims := prints_dims (d := d) t.arrayDims
  have hsuffix := prints_typeSuffixes h.known.2
  have hzoned := prints_zone (d := d) h.known.1
  have hparams := prints_params hparams
  rw [h.sql_eq]
  exact h.name.prints.append (hparams.1.append (hzoned.1.append (hsuffix.1.append hdims.1 hdims.2)
    (hsuffix.2.append hdims.2)) (hzoned.2.append (hsuffix.2.append hdims.2)))
    (hparams.2.append (hzoned.2.append (hsuffix.2.append hdims.2)))

theorem Parts.noPart_words (h : Parts d t n zone words) {Y : List Face} (hY : Follows Y) :
    NoPart ["WITH", "WITHOUT", "PRECISION", "VARYING"]
      (Face.first (words.flatMap (fun word => [Face.word word]) ++ (dimFaces t.arrayDims ++ Y))) :=
  noPart_suffixes h.known.2 (noPart_dims hY)

theorem Parts.noPart_tail (h : Parts d t n zone words) {Y : List Face} (hY : Follows Y) :
    NoPart ["PRECISION", "VARYING"] (Face.first (tailFaces zone words t.arrayDims ++ Y)) := by
  simp only [tailFaces, List.append_assoc]
  exact noPart_zone h.known.1 (h.noPart_words hY)

theorem Parts.steps_tail (h : Parts d t n zone words)
    (hdims : d.hasArrayTypes = false → t.arrayDims = 0) {Y : List Face} (hY : Follows Y) :
    Steps (do
      let zone ← timeZone t.name
      let suffixes ← many (typeSuffix? d)
      let dims ← Parser.arrayDims d
      return (⟨t.name, t.params, zone ++ suffixes, dims.length⟩ : DataType))
      (tailFaces zone words t.arrayDims ++ Y) t Y := by
  have hbehindWords := h.noPart_words hY
  simp only [Follows, List.mem_cons, List.not_mem_nil, or_false, not_or] at hY
  obtain ⟨hident, -, -, hbracket⟩ := hY
  have hdimsFirst : (Face.first (dimFaces t.arrayDims ++ Y)).kind ≠ .identifier := by
    refine Face.forall_first (P := fun f => f.kind ≠ .identifier) (fun f hf => ?_) hident
    cases hn : t.arrayDims <;> simp [hn, dimFaces, List.replicate_succ] at hf
    simp [← hf, Face.symbol]
  simp only [tailFaces, List.append_assoc]
  refine .bind
    (steps_timeZone h.known.1 ⟨hbehindWords.2.2 _ (by simp), hbehindWords.2.2 _ (by simp)⟩) ?_
  refine .bind (steps_typeSuffixes h.known.2 hdimsFirst) ?_
  refine .bind (steps_arrayDims hdims hbracket) ?_
  rw [← h.suffixes, List.length_replicate]
  exact .pure t Y

end Parts

-- The tokens of a type are those of its text.
theorem Parts.faces_eq {t : DataType} {n : NameParts} {zone : Option String} {words : List String}
    (hparts : Parts d t n zone words) (h : t.Readable d) :
    t.faces d = n.faces d ++ (paramFaces d t.params ++ tailFaces zone words t.arrayDims) :=
  (hparts.prints h.params).lexesTo.ofText

theorem Readable.prints {t : DataType} (h : t.Readable d) : Prints d t.sql (t.faces d) := by
  obtain ⟨n, zone, words, hparts⟩ := h.exists_parts
  rw [hparts.faces_eq h]
  exact hparts.prints h.params

theorem Readable.steps {t : DataType} (h : t.Readable d) {Y : List Face} (hY : Follows Y) :
    Steps (dataType d) (t.faces d ++ Y) t Y := by
  obtain ⟨n, zone, words, hparts⟩ := h.exists_parts
  have hbehind := hparts.noPart_tail hY
  rw [hparts.faces_eq h, List.append_assoc, List.append_assoc]
  refine .bind (hparts.name.steps (follows_params t.params hbehind)) ?_
  rw [hparts.text]
  exact .bind (steps_typeParams h.params hbehind.2.1) (hparts.steps_tail h.dims hY)

-- A parenthesis behind the first token opens the parameters, with no blank in front of it.
theorem Readable.opens_params {t : DataType} (h : t.Readable d) {Y : List Face} (hY : Follows Y)
    {f : Face} {Z : List Face} (hfaces : t.faces d ++ Y = f :: .symbol .leftParen :: Z) :
    ∃ text, t.sql = f.literal ++ ("(" ++ text) := by
  obtain ⟨n, zone, words, hparts⟩ := h.exists_parts
  have hbehind := hparts.noPart_tail hY
  rw [hparts.faces_eq h, List.append_assoc, List.append_assoc] at hfaces
  rcases n with ⟨first, _ | part, _ | second⟩
  case none.none =>
    obtain ⟨rfl, hparams⟩ := List.cons.inj hfaces
    rw [hparts.sql_eq]
    cases hp : t.params with
    | nil =>
        rw [hp] at hparams
        have hfirst := congrArg Face.first hparams
        rw [Face.first_cons] at hfirst
        exact absurd (congrArg Face.kind hfirst) hbehind.2.1
    | cons i params =>
        exact ⟨_, by simp [NameParts.text, NameParts.qualified, paramText, String.append_assoc]; rfl⟩
  all_goals simp [NameParts.faces, Face.word, Face.symbol] at hfaces

end DataType

end SchemaDiff
