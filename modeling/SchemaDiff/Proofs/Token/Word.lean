import SchemaDiff.Ident
import SchemaDiff.Proofs.Token.Reading

namespace SchemaDiff

open SchemaDiff.Text

namespace Text

-- Inside of ASCII there are few characters to look at.
theorem ascii_cases {P : Char → Prop} (hascii : ∀ n < 128, P (Char.ofNat n))
    (hother : ∀ c : Char, ¬c.toNat < 128 → P c) (c : Char) : P c := by
  by_cases h : c.toNat < 128
  · rw [← Char.ofNat_toNat c]
    exact hascii _ h
  · exact hother c h

theorem isAlphanum_of_not_ascii {c : Char} (h : ¬c.toNat < 128) : c.isAlphanum = false := by
  have habove : ∀ last : Char, last.toNat < 128 → ¬c.val ≤ last.val := by
    intro last hlast hle
    have hle : c.toNat ≤ last.toNat := UInt32.le_iff_toNat_le.mp hle
    omega
  have hrange : ∀ first last : Char, last.toNat < 128 →
      (decide (c.val ≥ first.val) && decide (c.val ≤ last.val)) = false := by
    intro first last hlast
    rw [decide_eq_false (habove last hlast), Bool.and_false]
  have hupper : c.isUpper = false := decide_eq_false fun h => habove 'Z' (by decide) h.2
  have hlower : c.isLower = false := hrange 'a' 'z' (by decide)
  have hdigit : c.isDigit = false := hrange '0' '9' (by decide)
  have hparts : c.isAlphanum = (c.isUpper || c.isLower || c.isDigit) := rfl
  rw [hparts, hupper, hlower, hdigit]
  rfl

-- Outside of ASCII there is only one letter case.
theorem toUpper_cases {P : Char → Prop} (hascii : ∀ n < 128, P (Char.ofNat n))
    (hother : ∀ c : Char, c.toUpper = c → P c) (c : Char) : P c := by
  refine ascii_cases hascii (fun c h => hother c ?_) c
  have hlower : ¬('a'.val ≤ c.val ∧ c.val ≤ 'z'.val) := by
    rintro ⟨-, hz⟩
    have hz : c.toNat ≤ 122 := UInt32.le_iff_toNat_le.mp hz
    omega
  exact dif_neg hlower

theorem upper_upper (s : String) : upper (upper s) = upper s := by
  have htwice : ∀ c : Char, c.toUpper.toUpper = c.toUpper :=
    toUpper_cases (by decide) fun c h => by rw [h, h]
  rw [upper, upper, String.toList_ofList, List.map_map]
  exact congrArg String.ofList (List.map_congr_left fun c _ => htwice c)

theorem toList_upper (s : String) : (upper s).toList = s.toList.map Char.toUpper := by
  simp [upper]

end Text

namespace Token

-- How a word may begin.
def startsName (c : Char) : Bool :=
  isLetter c || c == '_'

theorem startsName_toUpper (c : Char) : startsName c.toUpper = startsName c :=
  toUpper_cases (P := fun c => startsName c.toUpper = startsName c) (by decide)
    (fun c h => by rw [h]) c

theorem isWordPart_toUpper (c : Char) : isWordPart c.toUpper = isWordPart c :=
  toUpper_cases (P := fun c => isWordPart c.toUpper = isWordPart c) (by decide)
    (fun c h => by rw [h]) c

theorem isBlank_toUpper (c : Char) : isBlank c.toUpper = isBlank c :=
  toUpper_cases (P := fun c => isBlank c.toUpper = isBlank c) (by decide)
    (fun c h => by rw [h]) c

-- A word is an identifier or a keyword. Which of them it is depends on the dialect.
structure IsWord (text : String) : Prop where
  parts : ∃ c tail, text.toList = c :: tail ∧ startsName c = true ∧ isBlank c = false ∧
    ∀ x ∈ tail, isWordPart x = true

def wordKind (d : Dialect) (text : String) : TokenKind :=
  match d.keyword? text with
  | some k => .keyword k
  | none => .identifier

theorem startsName_plain : (specialChars ++ ['"', '\x60']).all (!startsName ·) = true := by
  decide

theorem isDigit_of_startsName {c : Char} (h : startsName c = true) : c.isDigit = false := by
  revert h
  refine ascii_cases (P := fun c => startsName c = true → c.isDigit = false) (by decide)
    (fun c hc _ => ?_) c
  have ha := isAlphanum_of_not_ascii hc
  rw [Char.isAlphanum, Bool.or_eq_false_iff] at ha
  exact ha.2

theorem lexeme_of_startsName {d : Dialect} {c : Char} {rest : List Char}
    (h : startsName c = true) : lexeme d c rest = wordLexeme d c rest := by
  have hplain : c ∉ specialChars ++ ['"', '\x60'] := by
    intro hc
    have hplain := List.all_eq_true.mp startsName_plain c hc
    simp [h] at hplain
  simp only [List.mem_append, List.mem_cons, List.not_mem_nil, or_false, not_or] at hplain
  have hquote : c ≠ d.identifierQuote := by
    cases d <;> simp [Dialect.identifierQuote, hplain.2]
  have hletter : (isLetter c || c == '_') = true := h
  rw [lexeme_eq_otherLexeme hplain.1, otherLexeme, if_neg hquote, if_neg hplain.2.1,
    if_neg (by simp [isDigit_of_startsName h]), if_pos hletter]

theorem wordLexeme_append {d : Dialect} {c : Char} {tail rest : List Char}
    (htail : ∀ x ∈ tail, isWordPart x = true) (hrest : rest.head?.all (!isWordPart ·) = true) :
    wordLexeme d c (tail ++ rest) = ⟨wordKind d (String.ofList (c :: tail)), tail.length⟩ := by
  unfold wordLexeme wordKind
  rw [takeWhile_append_of_all htail hrest]
  dsimp only
  cases d.keyword? (String.ofList (c :: tail)) <;> rfl

theorem genuine_of_isWord {d : Dialect} {text : String} (h : IsWord text) :
    Face.Genuine d ⟨wordKind d text, text⟩ := by
  obtain ⟨c, tail, htext, hstart, hblank, htail⟩ := h.parts
  have hends : ∀ rest, Ends (wordKind d text) rest → rest.head?.all (!isWordPart ·) = true := by
    intro rest hr
    unfold wordKind at hr
    split at hr <;> exact hr
  refine ⟨?_, c, tail, htext, hblank, fun rest hr => ?_⟩
  · simp only [wordKind]
    split <;> simp
  · rw [lexeme_of_startsName hstart, wordLexeme_append htail (hends rest hr), ← htext,
      String.ofList_toList]

-- Only numbers begin with a digit.
theorem noDigit_of_genuine {d : Dialect} {f : Face} (h : f.Genuine d) (hk : f.kind ≠ .number)
    (rest : List Char) : NoDigit (f.literal.toList ++ rest) := by
  have hread := h.read_eq
  obtain ⟨-, c, tail, htext, -⟩ := h
  unfold NoDigit
  rw [htext, List.cons_append, List.head?_cons, Option.all_some]
  by_contra hd
  have hd : c.isDigit = true := by simpa using hd
  have hkind : f.kind = (lexeme d c tail).kind := by
    rw [← hread, Face.read]
    simp only [htext]
  have hquotes : c ≠ d.identifierQuote ∧ c ≠ '"' := by
    constructor
    · rintro rfl
      cases d <;> simp [Dialect.identifierQuote] at hd
    · rintro rfl
      simp at hd
  rw [lexeme_eq_otherLexeme (not_special_of_starts (.inr (.inr (.inl hd)))), otherLexeme,
    if_neg hquotes.1, if_neg hquotes.2, if_pos hd] at hkind
  exact hk hkind

def isWordKind : TokenKind → Bool
  | .keyword _ | .identifier => true
  | _ => false

theorem isWordKind_wordKind (d : Dialect) (text : String) : isWordKind (wordKind d text) = true := by
  unfold wordKind
  split <;> rfl

theorem closedOrIllegal_kind {k : TokenKind} (hk : isWordKind k = false) (rest : List Char)
    (closed : Option Nat) : isWordKind (closedOrIllegal k rest closed).kind = false := by
  cases closed with
  | none => rfl
  | some n => exact hk

theorem colonLexeme_kind (d : Dialect) (rest : List Char) :
    isWordKind (colonLexeme d rest).kind = false := by
  unfold colonLexeme
  split
  · split_ifs <;> rfl
  · split_ifs <;> rfl
  · rfl

-- Only words are identifiers and keywords.
theorem startsName_of_isWordKind {d : Dialect} {c : Char} {rest : List Char}
    (h : isWordKind (lexeme d c rest).kind = true) : startsName c = true := by
  by_contra hc
  refine absurd h ?_
  rw [Bool.not_eq_true]
  have hletter : ¬(isLetter c || c == '_') = true := hc
  unfold lexeme
  split
  case h_7 => split_ifs <;> rfl
  case h_15 => exact closedOrIllegal_kind rfl _ _
  case h_17 => exact colonLexeme_kind d rest
  case h_25 => exact closedOrIllegal_kind rfl _ _
  case h_26 =>
    unfold otherLexeme
    split_ifs
    · exact closedOrIllegal_kind rfl _ _
    · exact closedOrIllegal_kind rfl _ _
    · rfl
    · rfl
  all_goals rfl

theorem isWord_of_genuine {d : Dialect} {f : Face} (h : f.Genuine d)
    (hk : isWordKind f.kind = true) : IsWord f.literal ∧ f.kind = wordKind d f.literal := by
  obtain ⟨-, c, tail, htext, hblank, hspells⟩ := h
  have hends : Ends f.kind [] := by
    cases hkind : f.kind with
    | keyword k => rfl
    | identifier => rfl
    | _ =>
        rw [hkind] at hk
        cases hk
  have hlexeme := hspells [] hends
  rw [List.append_nil] at hlexeme
  have hword : isWordKind (lexeme d c tail).kind = true := by
    rw [hlexeme]
    exact hk
  have hstart := startsName_of_isWordKind hword
  rw [lexeme_of_startsName hstart] at hlexeme
  have htail : ∀ x ∈ tail, isWordPart x = true := by
    have hlength : (wordLexeme d c tail).tail = (tail.takeWhile isWordPart).length := by
      unfold wordLexeme
      dsimp only
      split <;> rfl
    rw [hlexeme] at hlength
    have hwhole : tail.takeWhile isWordPart = tail :=
      (List.takeWhile_prefix _).eq_of_length hlength.symm
    intro x hx
    rw [← hwhole] at hx
    exact List.mem_takeWhile_imp hx
  refine ⟨⟨c, tail, htext, hstart, hblank, htail⟩, ?_⟩
  have hwhole : wordLexeme d c (tail ++ []) =
      ⟨wordKind d (String.ofList (c :: tail)), tail.length⟩ := wordLexeme_append htail rfl
  rw [List.append_nil, hlexeme, ← htext, String.ofList_toList] at hwhole
  exact congrArg Lexeme.kind hwhole

theorem IsWord.upper {text : String} (h : IsWord text) : IsWord (Text.upper text) := by
  obtain ⟨c, tail, htext, hstart, hblank, htail⟩ := h.parts
  refine ⟨c.toUpper, tail.map Char.toUpper, by rw [toList_upper, htext, List.map_cons],
    by rw [startsName_toUpper, hstart], by rw [isBlank_toUpper, hblank], fun x hx => ?_⟩
  obtain ⟨y, hy, rfl⟩ := List.mem_map.mp hx
  rw [isWordPart_toUpper, htail y hy]

-- Letter case makes no difference to what kind of word it is.
theorem wordKind_upper (d : Dialect) (text : String) :
    wordKind d (Text.upper text) = wordKind d text := by
  simp only [wordKind, Dialect.keyword?, Keyword.ofWord?, upper_upper]

end Token

end SchemaDiff
