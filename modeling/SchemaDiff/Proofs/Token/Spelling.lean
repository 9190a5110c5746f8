import Mathlib.Data.List.TakeWhile
import Mathlib.Tactic.Tauto
import SchemaDiff.Token.Lexeme

namespace SchemaDiff.Token

open SchemaDiff.Text

theorem takeWhile_append_of_all {p : Char → Bool} {part rest : List Char}
    (hpart : ∀ c ∈ part, p c = true) (hrest : rest.head?.all (!p ·) = true) :
    (part ++ rest).takeWhile p = part := by
  rw [List.takeWhile_append_of_pos hpart]
  cases rest with
  | nil => simp
  | cons c rest =>
      have hc : p c = false := by simpa using hrest
      simp [hc]

-- What may stand behind a number that is not part of it.
def EndsNumber (rest : List Char) : Prop :=
  rest.head?.all (fun c => !c.isDigit && c != 'e' && c != 'E') = true ∧ fractionLength rest = 0

-- What may stand behind a token of some kind without becoming part of it.
def Ends : TokenKind → List Char → Prop
  | .keyword _, rest | .identifier, rest => rest.head?.all (!isWordPart ·) = true
  | .quotedIdentifier _, rest | .string, rest =>
      rest.head?.all (fun c => c != '\'' && c != '"' && c != '\x60') = true
  | .number, rest => EndsNumber rest
  | .symbol .less, rest => rest.head?.all (fun c => c != '=' && c != '>') = true
  | .symbol .greater, rest => rest.head?.all (· != '=') = true
  | .symbol .minus, rest => rest.head?.all (· != '-') = true
  | .symbol .slash, rest => rest.head?.all (· != '*') = true
  | .symbol .colon, rest | .symbol .doubleColon, rest => rest.head?.all (· != ':') = true
  | .symbol .dot, rest => rest.head?.all (!·.isDigit) = true
  | .symbol _, _ => True
  | _, _ => False

-- The characters are read as one token of that kind, whatever stands behind them.
def Spells (d : Dialect) (kind : TokenKind) (c : Char) (tail : List Char) : Prop :=
  ∀ rest, Ends kind rest → lexeme d c (tail ++ rest) = ⟨kind, tail.length⟩

def NoDigit (rest : List Char) : Prop :=
  rest.head?.all (!·.isDigit) = true

theorem EndsNumber.noDigit {rest : List Char} (h : EndsNumber rest) : NoDigit rest := by
  have h := h.1
  unfold NoDigit
  cases hd : rest.head? with
  | none => rfl
  | some c =>
      simp only [hd, Option.all_some, Bool.and_eq_true] at h ⊢
      exact h.1.1

theorem digitsLength_append {part rest : List Char} (hpart : ∀ c ∈ part, c.isDigit = true)
    (hrest : NoDigit rest) : digitsLength (part ++ rest) = part.length := by
  rw [digitsLength, takeWhile_append_of_all hpart hrest]

theorem fractionLength_of_ne {c : Char} {rest : List Char} (h : c ≠ '.') :
    fractionLength (c :: rest) = 0 := by
  unfold fractionLength
  split
  · rename_i heq
    exact absurd (List.cons.inj heq).1 h
  · rfl

-- A part at the front of a text that a function measures. What stands behind the part may change,
-- as long as it does not continue it.
structure Measured (measure : List Char → Nat) (ends : List Char → Prop)
    (cs part rest : List Char) : Prop where
  eq_append : cs = part ++ rest
  length : measure cs = part.length
  stable : ∀ rest', ends rest' → measure (part ++ rest') = part.length

theorem Measured.of_zero {measure : List Char → Nat} {ends : List Char → Prop} {cs : List Char}
    (h : measure cs = 0) (hends : ∀ rest, ends rest → measure rest = 0) :
    Measured measure ends cs [] cs :=
  ⟨rfl, h, fun rest' hr => hends rest' hr⟩

theorem exists_digits (cs : List Char) :
    ∃ part rest, Measured digitsLength NoDigit cs part rest ∧ ∀ c ∈ part, c.isDigit = true := by
  have hall : ∀ c ∈ cs.takeWhile Char.isDigit, c.isDigit = true :=
    fun _ hc => List.mem_takeWhile_imp hc
  exact ⟨_, cs.dropWhile Char.isDigit, ⟨List.takeWhile_append_dropWhile.symm, rfl,
    fun _ hr => digitsLength_append hall hr⟩, hall⟩

def EndsFraction (rest : List Char) : Prop :=
  NoDigit rest ∧ fractionLength rest = 0

theorem EndsNumber.endsFraction {rest : List Char} (h : EndsNumber rest) : EndsFraction rest :=
  ⟨h.noDigit, h.2⟩

theorem exists_of_fractionLength {cs : List Char} (h : fractionLength cs ≠ 0) :
    ∃ d rest, cs = '.' :: d :: rest ∧ d.isDigit = true := by
  unfold fractionLength at h
  split at h
  · rename_i d rest
    refine ⟨d, rest, rfl, ?_⟩
    by_contra hd
    simp [hd] at h
  · exact absurd rfl h

theorem exists_fraction (cs : List Char) :
    ∃ part rest, Measured fractionLength EndsFraction cs part rest ∧
      (part ≠ [] → ∀ rest', NoDigit (part ++ rest')) := by
  by_cases h : fractionLength cs = 0
  · exact ⟨[], cs, .of_zero h fun _ hr => hr.2, fun hne => absurd rfl hne⟩
  · obtain ⟨d, rest, rfl, hd⟩ := exists_of_fractionLength h
    obtain ⟨part, behind, hm, hdigits⟩ := exists_digits (d :: rest)
    obtain ⟨tail, rfl⟩ : ∃ tail, part = d :: tail := by
      have hlength := hm.length
      cases part with
      | nil => simp [digitsLength, hd] at hlength
      | cons c tail =>
          have heq := hm.eq_append
          exact ⟨tail, by rw [List.cons_append] at heq; rw [(List.cons.inj heq).1]⟩
    refine ⟨'.' :: d :: tail, behind, ⟨?_, ?_, ?_⟩, fun _ _ => rfl⟩
    · rw [hm.eq_append]
      rfl
    · rw [fractionLength, if_pos hd, hm.length, Nat.add_comm]
      rfl
    · intro rest' hr
      have hstable := hm.stable rest' hr.1
      simp only [List.cons_append] at hstable ⊢
      rw [fractionLength, if_pos hd, hstable, Nat.add_comm]
      rfl

theorem exists_of_exponentLength {cs : List Char} (h : exponentLength cs ≠ 0) :
    ∃ e d rest, cs = e :: d :: rest ∧ (e = 'e' ∨ e = 'E') ∧
      (d.isDigit = true ∨ d.isDigit = false ∧ (d = '+' ∨ d = '-')) := by
  unfold exponentLength at h
  split at h
  · rename_i e d rest
    refine ⟨e, d, rest, rfl, ?_⟩
    by_cases he : e = 'e' ∨ e = 'E'
    · rw [if_pos he] at h
      refine ⟨he, ?_⟩
      by_cases hd : d.isDigit = true
      · exact .inl hd
      · rw [if_neg hd] at h
        refine .inr ⟨by simpa using hd, ?_⟩
        by_contra hs
        rw [if_neg hs] at h
        exact h rfl
    · rw [if_neg he] at h
      exact absurd rfl h
  · exact absurd rfl h

theorem exponentLength_of_endsNumber {rest : List Char} (h : EndsNumber rest) :
    exponentLength rest = 0 := by
  by_contra hne
  obtain ⟨e, d, rest, rfl, he, -⟩ := exists_of_exponentLength hne
  have h := h.1
  rcases he with rfl | rfl <;> simp at h

theorem endsFraction_of_exponent {e : Char} (he : e = 'e' ∨ e = 'E') (rest : List Char) :
    EndsFraction (e :: rest) := by
  rcases he with rfl | rfl
  · exact ⟨rfl, fractionLength_of_ne (by decide)⟩
  · exact ⟨rfl, fractionLength_of_ne (by decide)⟩

theorem exists_exponent (cs : List Char) :
    ∃ part rest, Measured exponentLength EndsNumber cs part rest ∧
      (part ≠ [] → ∀ rest', EndsFraction (part ++ rest')) := by
  by_cases h : exponentLength cs = 0
  · exact ⟨[], cs, .of_zero h fun _ hr => exponentLength_of_endsNumber hr,
      fun hne => absurd rfl hne⟩
  · obtain ⟨e, d, rest, rfl, he, hd⟩ := exists_of_exponentLength h
    obtain ⟨part, behind, hm, hdigits⟩ := exists_digits rest
    have hfraction := endsFraction_of_exponent he
    refine ⟨e :: d :: part, behind, ⟨?_, ?_, ?_⟩, fun _ rest' => hfraction _⟩
    · rw [hm.eq_append]
      rfl
    · have hlength := hm.length
      rcases hd with hd | ⟨hn, hd⟩
      · simp only [exponentLength, he, if_true, hd, digitsLength, List.takeWhile_cons,
          List.length_cons] at hlength ⊢
        omega
      · simp only [exponentLength, he, if_true, hn, Bool.false_eq_true, if_false, hd, hlength,
          List.length_cons]
        omega
    · intro rest' hr
      have hstable := hm.stable rest' hr.noDigit
      rcases hd with hd | ⟨hn, hd⟩
      · simp only [List.cons_append, exponentLength, he, if_true, hd, digitsLength,
          List.takeWhile_cons, List.length_cons] at hstable ⊢
        omega
      · simp only [List.cons_append, exponentLength, he, if_true, hn, Bool.false_eq_true, if_false,
          hd, hstable, List.length_cons]
        omega

theorem exists_number (cs : List Char) :
    ∃ part rest, Measured numberLength EndsNumber cs part rest := by
  obtain ⟨whole, rest₁, hwhole, -⟩ := exists_digits cs
  obtain ⟨fraction, rest₂, hfraction, hdot⟩ := exists_fraction rest₁
  obtain ⟨exponent, rest₃, hexponent, hmark⟩ := exists_exponent rest₂
  -- The three parts end each other, however much of them is there.
  have hends₂ : ∀ rest', EndsNumber rest' → EndsFraction (exponent ++ rest') := by
    intro rest' hr
    by_cases he : exponent = []
    · simpa [he] using hr.endsFraction
    · exact hmark he rest'
  have hends₁ : ∀ rest', EndsNumber rest' → NoDigit (fraction ++ (exponent ++ rest')) := by
    intro rest' hr
    by_cases hf : fraction = []
    · simpa [hf] using (hends₂ rest' hr).1
    · exact hdot hf _
  have hmeasure : ∀ rest', digitsLength (whole ++ (fraction ++ (exponent ++ rest'))) =
      whole.length → fractionLength (fraction ++ (exponent ++ rest')) = fraction.length →
      exponentLength (exponent ++ rest') = exponent.length →
      numberLength (whole ++ (fraction ++ (exponent ++ rest'))) =
        (whole ++ fraction ++ exponent).length := by
    intro rest' hw hf he
    have hdrop : (whole ++ (fraction ++ (exponent ++ rest'))).drop (whole.length + fraction.length) =
        exponent ++ rest' := by
      rw [← List.append_assoc, ← List.length_append, List.drop_left]
    simp only [numberLength, hw, List.drop_left, hf, hdrop, he, List.length_append]
  have heq : cs = whole ++ (fraction ++ (exponent ++ rest₃)) := by
    rw [hwhole.eq_append, hfraction.eq_append, hexponent.eq_append]
  refine ⟨whole ++ fraction ++ exponent, rest₃, by simp [heq], ?_, fun rest' hr => ?_⟩
  · have hw := hwhole.length
    have hf := hfraction.length
    have he := hexponent.length
    rw [heq] at hw
    rw [hfraction.eq_append, hexponent.eq_append] at hf
    rw [hexponent.eq_append] at he
    rw [heq]
    exact hmeasure rest₃ hw hf he
  · rw [List.append_assoc, List.append_assoc]
    exact hmeasure rest' (hwhole.stable _ (hends₁ rest' hr))
      (hfraction.stable _ (hends₂ rest' hr)) (hexponent.stable _ hr)

theorem closingQuote?_singleton_append {q : Char} {escapes : Bool} {rest : List Char}
    (h : rest.head? ≠ some q) : closingQuote? q escapes ([q] ++ rest) = some 1 := by
  cases rest with
  | nil => simp [closingQuote?]
  | cons d rest =>
      have hd : d ≠ q := by simpa using h
      simp [closingQuote?, hd]

-- A literal that is closed stays closed at the same place, unless one more quote follows it.
theorem closingQuote?_split {q : Char} {escapes : Bool} {cs : List Char} {n : Nat}
    (h : closingQuote? q escapes cs = some n) :
    ∃ part rest, cs = part ++ rest ∧ part.length = n ∧ part.getLast? = some q ∧
      ∀ rest', rest'.head? ≠ some q → closingQuote? q escapes (part ++ rest') = some n := by
  induction cs using closingQuote?.induct q escapes generalizing n with
  | case1 => simp [closingQuote?] at h
  | case2 =>
      obtain rfl : 1 = n := by simpa [closingQuote?] using h
      exact ⟨[q], [], rfl, rfl, rfl, fun _ hr => closingQuote?_singleton_append hr⟩
  | case3 c hc => simp [closingQuote?, hc] at h
  | case4 rest ih =>
      simp only [closingQuote?, if_true, Option.map_eq_some_iff] at h
      obtain ⟨m, hm, rfl⟩ := h
      obtain ⟨part, behind, rfl, hlength, hlast, hstable⟩ := ih hm
      refine ⟨q :: q :: part, behind, rfl, by simp [hlength], ?_, fun rest' hr => ?_⟩
      · simp [List.getLast?_cons, hlast]
      · simp [closingQuote?, hstable rest' hr]
  | case5 d rest hd =>
      obtain rfl : 1 = n := by simpa [closingQuote?, hd] using h
      exact ⟨[q], d :: rest, rfl, rfl, rfl, fun _ hr => closingQuote?_singleton_append hr⟩
  | case6 c d rest hc he ih =>
      rw [closingQuote?, if_neg hc, if_pos he, Option.map_eq_some_iff] at h
      obtain ⟨m, hm, rfl⟩ := h
      obtain ⟨part, behind, rfl, hlength, hlast, hstable⟩ := ih hm
      refine ⟨c :: d :: part, behind, rfl, by simp [hlength], ?_, fun rest' hr => ?_⟩
      · simp [List.getLast?_cons, hlast]
      · rw [List.cons_append, List.cons_append, closingQuote?, if_neg hc, if_pos he,
          hstable rest' hr]
        rfl
  | case7 c d rest hc he ih =>
      rw [closingQuote?, if_neg hc, if_neg he, Option.map_eq_some_iff] at h
      obtain ⟨m, hm, rfl⟩ := h
      obtain ⟨part, behind, hsplit, hlength, hlast, hstable⟩ := ih hm
      obtain ⟨tail, rfl⟩ : ∃ tail, part = d :: tail := by
        cases part with
        | nil => simp at hlast
        | cons e tail =>
            rw [List.cons_append] at hsplit
            exact ⟨tail, by rw [(List.cons.inj hsplit).1]⟩
      refine ⟨c :: d :: tail, behind, by simp [hsplit], by simp [hlength], ?_, fun rest' hr => ?_⟩
      · rw [List.getLast?_cons, hlast]
        rfl
      · have hinner := hstable rest' hr
        simp only [List.cons_append] at hinner ⊢
        simp [closingQuote?, hc, he, hinner]

section

variable {d : Dialect} {c : Char} {kind : TokenKind} {rest : List Char}

theorem lexeme_minus (h : rest.head? ≠ some '-') :
    lexeme d '-' rest = ⟨.symbol .minus, 0⟩ := by
  unfold lexeme
  split <;> simp_all

theorem lexeme_slash (h : rest.head? ≠ some '*') :
    lexeme d '/' rest = ⟨.symbol .slash, 0⟩ := by
  unfold lexeme
  split <;> simp_all

theorem lexeme_less (h : rest.head? ≠ some '=') (h' : rest.head? ≠ some '>') :
    lexeme d '<' rest = ⟨.symbol .less, 0⟩ := by
  unfold lexeme
  split <;> simp_all

theorem lexeme_greater (h : rest.head? ≠ some '=') :
    lexeme d '>' rest = ⟨.symbol .greater, 0⟩ := by
  unfold lexeme
  split <;> simp_all

theorem lexeme_dot (h : rest.head?.all (!·.isDigit) = true) :
    lexeme d '.' rest = ⟨.symbol .dot, 0⟩ := by
  cases rest with
  | nil => rfl
  | cons next rest =>
      have hn : next.isDigit = false := by simpa using h
      simp [lexeme, hn]

theorem lexeme_dot_digit {next : Char} (h : next.isDigit = true) :
    lexeme d '.' (next :: rest) = numberLexeme '.' (next :: rest) := by
  simp [lexeme, h]

-- Characters that start a token of their own kind.
def specialChars : List Char :=
  ['(', ')', '[', ']', ',', ';', '.', '+', '*', '%', '=', '-', '/', ':', '<', '>', '!', '|', '\'']

theorem lexeme_eq_otherLexeme (h : c ∉ specialChars) : lexeme d c rest = otherLexeme d c rest := by
  unfold lexeme
  split <;> first | rfl | exact absurd (by simp [specialChars]) h

end

theorem not_special_of_starts {c : Char}
    (h : c = '"' ∨ c = '\x60' ∨ c.isDigit = true ∨ isLetter c = true ∨ c = '_') :
    c ∉ specialChars := by
  have hall : (specialChars.all fun s =>
      !(s == '"' || s == '\x60' || s.isDigit || isLetter s || s == '_')) = true := by decide
  intro hc
  have hplain := List.all_eq_true.mp hall c hc
  simp only [Bool.not_or, Bool.and_eq_true, Bool.not_eq_true', beq_eq_false_iff_ne] at hplain
  obtain ⟨⟨⟨⟨hquote, htick⟩, hdigit⟩, hletter⟩, hscore⟩ := hplain
  rcases h with h | h | h | h | h
  · exact hquote h
  · exact htick h
  · exact Bool.false_ne_true (hdigit.symm.trans h)
  · exact Bool.false_ne_true (hletter.symm.trans h)
  · exact hscore h

-- The first `n` characters behind `c` belong to its token.
structure Reads (d : Dialect) (kind : TokenKind) (c : Char) (cs : List Char) (n : Nat) : Prop where
  length_le : n ≤ cs.length
  spells : Spells d kind c (cs.take n)

theorem closedOrIllegal_stable {k kind : TokenKind} {q : Char} {escapes : Bool} {cs : List Char}
    {n : Nat} (h : closedOrIllegal k cs (closingQuote? q escapes cs) = ⟨kind, n⟩)
    (hk : kind ≠ .illegal) :
    k = kind ∧ n ≤ cs.length ∧ ∀ rest, rest.head? ≠ some q →
      closedOrIllegal k (cs.take n ++ rest) (closingQuote? q escapes (cs.take n ++ rest)) =
        ⟨k, (cs.take n).length⟩ := by
  cases hq : closingQuote? q escapes cs with
  | none =>
      rw [hq] at h
      cases h
      exact absurd rfl hk
  | some m =>
      rw [hq] at h
      cases h
      obtain ⟨part, rest, rfl, hlength, -, hstable⟩ := closingQuote?_split hq
      refine ⟨rfl, by simp [← hlength], fun rest' hr => ?_⟩
      rw [← hlength, List.take_left, hstable rest' hr, hlength]
      rfl

theorem wordLexeme_stable (d : Dialect) (c : Char) (cs : List Char) :
    (wordLexeme d c cs).tail ≤ cs.length ∧ ∀ rest, rest.head?.all (!isWordPart ·) = true →
      wordLexeme d c (cs.take (wordLexeme d c cs).tail ++ rest) = wordLexeme d c cs := by
  have htail : (wordLexeme d c cs).tail = (cs.takeWhile isWordPart).length := by
    unfold wordLexeme
    dsimp only
    split <;> rfl
  have htake : cs.take (cs.takeWhile isWordPart).length = cs.takeWhile isWordPart :=
    (List.prefix_iff_eq_take.mp (List.takeWhile_prefix _)).symm
  refine ⟨htail ▸ (List.takeWhile_prefix _).length_le, fun rest hr => ?_⟩
  rw [htail, htake]
  unfold wordLexeme
  rw [takeWhile_append_of_all (fun _ hc => List.mem_takeWhile_imp hc) hr]

theorem numberLexeme_stable (c : Char) (cs : List Char) (h : numberLength (c :: cs) ≠ 0) :
    (numberLexeme c cs).tail ≤ cs.length ∧ ∀ rest, EndsNumber rest →
      numberLexeme c (cs.take (numberLexeme c cs).tail ++ rest) = numberLexeme c cs := by
  obtain ⟨part, rest, hm⟩ := exists_number (c :: cs)
  have hlength := hm.length
  have heq := hm.eq_append
  cases part with
  | nil => exact absurd hlength h
  | cons e tail =>
      obtain ⟨rfl, rfl⟩ : c = e ∧ cs = tail ++ rest := by simpa using heq
      have htail : (numberLexeme c (tail ++ rest)).tail = tail.length := by
        simp [numberLexeme, hlength]
      refine ⟨by simp [htail], fun rest' hr => ?_⟩
      have hstable := hm.stable rest' hr
      rw [htail, List.take_left, numberLexeme, numberLexeme, hlength, ← hstable]
      rfl

theorem digitsLength_cons_pos {c : Char} (cs : List Char) (h : c.isDigit = true) :
    0 < digitsLength (c :: cs) := by
  simp [digitsLength, h]

theorem numberLength_of_digit {c : Char} (cs : List Char) (h : c.isDigit = true) :
    0 < numberLength (c :: cs) := by
  have hpos := digitsLength_cons_pos cs h
  simp only [numberLength]
  omega

theorem numberLength_of_dot {next : Char} (cs : List Char) (h : next.isDigit = true) :
    1 < numberLength ('.' :: next :: cs) := by
  have hpos := digitsLength_cons_pos cs h
  have hwhole : digitsLength ('.' :: next :: cs) = 0 := rfl
  have hfraction : fractionLength ('.' :: next :: cs) = 1 + digitsLength (next :: cs) := by
    simp [fractionLength, h]
  simp only [numberLength, hwhole, List.drop_zero, hfraction]
  omega

theorem ends_quote {rest : List Char}
    (h : rest.head?.all (fun c => c != '\'' && c != '"' && c != '\x60') = true) {q : Char}
    (hq : q = '\'' ∨ q = '"' ∨ q = '\x60') : rest.head? ≠ some q := by
  intro hr
  rw [hr] at h
  rcases hq with rfl | rfl | rfl <;> simp at h

theorem otherLexeme_stable {d : Dialect} {c : Char} {cs : List Char} {kind : TokenKind} {n : Nat}
    (h : otherLexeme d c cs = ⟨kind, n⟩) (hk : kind ≠ .illegal) : Reads d kind c cs n := by
  have hquote : d.identifierQuote = '"' ∨ d.identifierQuote = '\x60' := by
    cases d <;> decide
  -- The first character decides the kind, hence it is enough to look at one branch.
  have hother {kind : TokenKind} (hc : c = '"' ∨ c = '\x60' ∨ c.isDigit = true ∨
      isLetter c = true ∨ c = '_') (hn : n ≤ cs.length)
      (hs : ∀ rest, Ends kind rest →
        otherLexeme d c (cs.take n ++ rest) = ⟨kind, (cs.take n).length⟩) :
      Reads d kind c cs n := by
    refine ⟨hn, fun rest hr => ?_⟩
    rw [lexeme_eq_otherLexeme (not_special_of_starts hc)]
    exact hs rest hr
  by_cases hq : c = d.identifierQuote
  · have hc : c = '"' ∨ c = '\x60' := hq ▸ hquote
    simp only [otherLexeme, if_pos hq] at h hother
    obtain ⟨rfl, hn, hstable⟩ := closedOrIllegal_stable h hk
    exact hother (by tauto) hn fun rest hr => hstable rest (ends_quote hr (by tauto))
  simp only [otherLexeme, if_neg hq] at h hother
  by_cases hs : c = '"'
  · simp only [if_pos hs] at h hother
    obtain ⟨rfl, hn, hstable⟩ := closedOrIllegal_stable h hk
    exact hother (by tauto) hn fun rest hr => hstable rest (ends_quote hr (by tauto))
  simp only [if_neg hs] at h hother
  by_cases hd : c.isDigit = true
  · simp only [if_pos hd] at h hother
    have hpos := numberLength_of_digit cs hd
    obtain ⟨hn, hstable⟩ := numberLexeme_stable c cs (Nat.pos_iff_ne_zero.mp hpos)
    rw [h] at hn hstable
    cases h
    refine hother (by tauto) hn fun rest hr => ?_
    rw [hstable rest hr, List.length_take, Nat.min_eq_left hn]
  simp only [if_neg hd] at h hother
  by_cases hw : (isLetter c || c == '_') = true
  · simp only [if_pos hw] at h hother
    obtain ⟨hn, hstable⟩ := wordLexeme_stable d c cs
    rw [h] at hn hstable
    have hends : ∀ rest, Ends kind rest → rest.head?.all (!isWordPart ·) = true := by
      intro rest hr
      unfold wordLexeme at h
      dsimp only at h
      split at h <;> cases h <;> exact hr
    refine hother (by simpa using Or.inr (Or.inr (Or.inr hw))) hn fun rest hr => ?_
    rw [hstable rest (hends rest hr), List.length_take, Nat.min_eq_left hn]
  · simp only [if_neg hw] at h
    cases h
    exact absurd rfl hk

theorem head?_ne_of_all {rest : List Char} {c : Char} {p : Char → Bool}
    (h : rest.head?.all p = true) (hc : p c = false) : rest.head? ≠ some c := by
  intro hr
  rw [hr, Option.all_some, hc] at h
  exact absurd h Bool.false_ne_true

theorem colonLexeme_colon {d : Dialect} {rest : List Char} (h : rest.head? ≠ some ':') :
    colonLexeme d rest = ⟨.symbol .colon, 0⟩ := by
  unfold colonLexeme
  split <;> simp_all

theorem colonLexeme_doubleColon {d : Dialect} {rest : List Char}
    (hd : d.castOperators.contains "::" = true) (h : rest.head? ≠ some ':') :
    colonLexeme d (':' :: rest) = ⟨.symbol .doubleColon, 1⟩ := by
  unfold colonLexeme
  split <;> simp_all

theorem colonLexeme_stable {d : Dialect} {cs : List Char} {kind : TokenKind} {n : Nat}
    (h : colonLexeme d cs = ⟨kind, n⟩) : Reads d kind ':' cs n := by
  have hcolon : Reads d (.symbol .colon) ':' cs 0 :=
    ⟨Nat.zero_le _, fun rest hr => colonLexeme_colon (head?_ne_of_all hr rfl)⟩
  have hdouble {tail : List Char} (hd : d.castOperators.contains "::" = true) :
      Reads d (.symbol .doubleColon) ':' (':' :: tail) 1 :=
    ⟨by simp, fun rest hr => colonLexeme_doubleColon hd (head?_ne_of_all hr rfl)⟩
  have htriple {tail : List Char} (hd : d.castOperators.contains ":::" = true) :
      Reads d (.symbol .tripleColon) ':' (':' :: ':' :: tail) 2 :=
    ⟨by simp, fun rest _ => by
      show colonLexeme d (':' :: ':' :: rest) = _
      rw [colonLexeme, if_pos hd]
      rfl⟩
  unfold colonLexeme at h
  split at h
  · split at h
    · rename_i hd
      cases h
      exact htriple hd
    · split at h
      · rename_i hd
        cases h
        exact hdouble hd
      · cases h
        exact hcolon
  · split at h
    · rename_i hd
      cases h
      exact hdouble hd
    · cases h
      exact hcolon
  · cases h
    exact hcolon

theorem reads_dot {d : Dialect} {next : Char} {tail : List Char} {kind : TokenKind} {n : Nat}
    (h : lexeme d '.' (next :: tail) = ⟨kind, n⟩) : Reads d kind '.' (next :: tail) n := by
  by_cases hd : next.isDigit = true
  · rw [lexeme_dot_digit hd] at h
    have hlong := numberLength_of_dot tail hd
    obtain ⟨hn, hstable⟩ := numberLexeme_stable '.' (next :: tail) (by omega)
    rw [h] at hn hstable
    cases h
    refine ⟨hn, fun rest hr => ?_⟩
    -- The digit behind the dot is still there.
    have htake : (next :: tail).take (numberLength ('.' :: next :: tail) - 1) =
        next :: tail.take (numberLength ('.' :: next :: tail) - 2) := by
      obtain ⟨m, hm⟩ : ∃ m, numberLength ('.' :: next :: tail) = m + 2 :=
        ⟨numberLength ('.' :: next :: tail) - 2, by omega⟩
      rw [hm]
      rfl
    have hread := hstable rest hr
    rw [htake, List.cons_append] at hread ⊢
    rw [lexeme_dot_digit hd, hread, ← htake, List.length_take, Nat.min_eq_left hn]
  · simp only [lexeme, if_neg hd] at h
    cases h
    exact ⟨Nat.zero_le _, fun rest hr => lexeme_dot hr⟩

theorem reads_string {d : Dialect} {cs : List Char} {kind : TokenKind} {n : Nat}
    (h : stringLexeme d '\'' cs = ⟨kind, n⟩) (hk : kind ≠ .illegal) :
    Reads d kind '\'' cs n := by
  obtain ⟨rfl, hn, hstable⟩ := closedOrIllegal_stable h hk
  exact ⟨hn, fun rest hr => hstable rest (ends_quote hr (.inl rfl))⟩

-- What is read once as a token is read as that token again, whatever ends it.
theorem reads_of_lexeme {d : Dialect} {c : Char} {cs : List Char} {kind : TokenKind} {n : Nat}
    (h : lexeme d c cs = ⟨kind, n⟩) (hk : kind ≠ .comment ∧ kind ≠ .illegal) :
    Reads d kind c cs n := by
  have hread := h
  unfold lexeme at h
  split at h
  case h_7 => exact reads_dot hread
  case h_8 =>
    cases h
    exact ⟨by simp, fun rest hr => lexeme_dot hr⟩
  case h_13 =>
    cases h
    exact absurd rfl hk.1
  case h_14 =>
    cases h
    exact ⟨by simp, fun rest hr => lexeme_minus (head?_ne_of_all hr rfl)⟩
  case h_15 =>
    unfold closedOrIllegal at h
    split at h <;> cases h
    · exact absurd rfl hk.1
    · exact absurd rfl hk.2
  case h_16 =>
    cases h
    exact ⟨by simp, fun rest hr => lexeme_slash (head?_ne_of_all hr rfl)⟩
  case h_17 => exact colonLexeme_stable h
  case h_20 =>
    cases h
    exact ⟨by simp, fun rest hr => lexeme_less (head?_ne_of_all hr rfl) (head?_ne_of_all hr rfl)⟩
  case h_22 =>
    cases h
    exact ⟨by simp, fun rest hr => lexeme_greater (head?_ne_of_all hr rfl)⟩
  case h_25 => exact reads_string h hk.2
  case h_26 => exact otherLexeme_stable h hk.2
  all_goals
    cases h
    exact ⟨by simp, fun _ _ => rfl⟩

end SchemaDiff.Token
