import SchemaDiff.Proofs.Token.Printing

namespace SchemaDiff.Token

open SchemaDiff.Text

variable {d : Dialect} {part rest behind : List Char}

-- What is measured within a part of the text stays as long when the text behind the part is
-- replaced by a new line. No token reaches over the line break, and none needs what was there.
def Cuts (measure : List Char → Nat) : Prop :=
  ∀ part rest behind, measure (part ++ rest) ≤ part.length →
    measure (part ++ '\n' :: behind) = measure (part ++ rest)

theorem takeWhile_cut {f : Char → Bool} (hf : f '\n' = false)
    (h : ((part ++ rest).takeWhile f).length ≤ part.length) :
    (part ++ '\n' :: behind).takeWhile f = (part ++ rest).takeWhile f := by
  induction part with
  | nil =>
      have hnil : rest.takeWhile f = [] := List.eq_nil_of_length_eq_zero (Nat.le_zero.mp h)
      simp [hf, hnil]
  | cons c part ih =>
      by_cases hc : f c = true
      · simp only [List.cons_append, List.takeWhile_cons_of_pos hc, List.length_cons,
          Nat.add_le_add_iff_right] at h ⊢
        rw [ih h]
      · simp [List.takeWhile_cons_of_neg hc]

theorem cuts_digitsLength : Cuts digitsLength := fun _ _ _ h =>
  congrArg List.length (takeWhile_cut rfl h)

theorem fractionLength_dot {next : Char} (h : next.isDigit = true) (cs : List Char) :
    fractionLength ('.' :: next :: cs) = 1 + digitsLength (next :: cs) := by
  simp [fractionLength, h]

theorem cuts_fractionLength : Cuts fractionLength := by
  intro part rest behind h
  match part with
  | [] =>
      have hzero : fractionLength rest = 0 := Nat.le_zero.mp h
      rw [List.nil_append, List.nil_append, fractionLength_of_ne (by decide), hzero]
  | [c] =>
      by_contra hne
      have hzero : fractionLength (c :: '\n' :: behind) = 0 := by
        unfold fractionLength
        split
        · rename_i heq
          simp only [List.cons.injEq] at heq
          rw [← heq.2.1]
          rfl
        · rfl
      have hlong : fractionLength ([c] ++ rest) ≠ 0 := fun h0 => hne (hzero.trans h0.symm)
      obtain ⟨next, tail, heq, hd⟩ := exists_of_fractionLength hlong
      have hpos := digitsLength_cons_pos tail hd
      rw [heq, fractionLength_dot hd, List.length_singleton] at h
      omega
  | c :: next :: part =>
      simp only [List.cons_append, List.length_cons] at h ⊢
      by_cases hc : c = '.'
      · subst hc
        by_cases hd : next.isDigit = true
        · rw [fractionLength_dot hd] at h
          rw [fractionLength_dot hd, fractionLength_dot hd]
          have hdigits := cuts_digitsLength (next :: part) rest behind
            (by simp only [List.cons_append, List.length_cons]; omega)
          simpa using hdigits
        · simp [fractionLength, hd]
      · rw [fractionLength_of_ne hc, fractionLength_of_ne hc]

theorem exponentLength_of_digit {e next : Char} (he : e = 'e' ∨ e = 'E')
    (h : next.isDigit = true) (cs : List Char) :
    exponentLength (e :: next :: cs) = 1 + digitsLength (next :: cs) := by
  simp [exponentLength, he, h]

theorem exponentLength_of_sign {e next : Char} (he : e = 'e' ∨ e = 'E')
    (h : next.isDigit = false) (hs : next = '+' ∨ next = '-') (cs : List Char) :
    exponentLength (e :: next :: cs) = 2 + digitsLength cs := by
  simp [exponentLength, he, h, hs]

theorem exponentLength_of_other {e next : Char} (h : ¬((e = 'e' ∨ e = 'E') ∧
    (next.isDigit = true ∨ next = '+' ∨ next = '-'))) (cs : List Char) :
    exponentLength (e :: next :: cs) = 0 := by
  by_cases he : e = 'e' ∨ e = 'E'
  · simp only [he, true_and, not_or] at h
    simp [exponentLength, he, h.1, h.2]
  · simp [exponentLength, he]

theorem cuts_exponentLength : Cuts exponentLength := by
  intro part rest behind h
  match part with
  | [] =>
      have hzero : exponentLength rest = 0 := Nat.le_zero.mp h
      rw [List.nil_append, List.nil_append, hzero]
      cases behind <;> simp [exponentLength]
  | [c] =>
      have hnone : exponentLength (c :: '\n' :: behind) = 0 :=
        exponentLength_of_other (by simp) behind
      rw [List.singleton_append, List.singleton_append, hnone]
      cases rest with
      | nil => rfl
      | cons next rest =>
          rw [List.singleton_append, List.length_singleton] at h
          by_contra hne
          by_cases he : c = 'e' ∨ c = 'E'
          · by_cases hd : next.isDigit = true
            · have hpos := digitsLength_cons_pos rest hd
              rw [exponentLength_of_digit he hd] at h
              omega
            · by_cases hs : next = '+' ∨ next = '-'
              · rw [exponentLength_of_sign he (by simpa using hd) hs] at h
                omega
              · exact hne (exponentLength_of_other (by simp [hd, hs]) rest).symm
          · exact hne (exponentLength_of_other (by simp [he]) rest).symm
  | c :: next :: part =>
      simp only [List.cons_append, List.length_cons] at h ⊢
      by_cases he : c = 'e' ∨ c = 'E'
      · by_cases hd : next.isDigit = true
        · rw [exponentLength_of_digit he hd] at h ⊢
          rw [exponentLength_of_digit he hd]
          have hdigits := cuts_digitsLength (next :: part) rest behind
            (by simp only [List.cons_append, List.length_cons]; omega)
          simpa using hdigits
        · by_cases hs : next = '+' ∨ next = '-'
          · have hd : next.isDigit = false := by simpa using hd
            rw [exponentLength_of_sign he hd hs] at h ⊢
            rw [exponentLength_of_sign he hd hs, cuts_digitsLength part rest behind (by omega)]
          · rw [exponentLength_of_other (by simp [hd, hs]), exponentLength_of_other (by simp [hd, hs])]
      · rw [exponentLength_of_other (by simp [he]), exponentLength_of_other (by simp [he])]

theorem cuts_numberLength : Cuts numberLength := by
  intro part rest behind h
  simp only [numberLength] at h ⊢
  have hwhole := cuts_digitsLength part rest behind (by omega)
  rw [hwhole]
  -- What is left of the part, behind the digits and behind the fraction.
  have hdrop : ∀ n ≤ part.length, ∀ cs, (part ++ cs).drop n = part.drop n ++ cs :=
    fun n hn cs => List.drop_append_of_le_length hn
  have hw : digitsLength (part ++ rest) ≤ part.length := by omega
  have hfraction := cuts_fractionLength (part.drop (digitsLength (part ++ rest))) rest behind
  rw [← hdrop _ hw, ← hdrop _ hw, List.length_drop] at hfraction
  rw [hfraction (by omega)]
  have hd : digitsLength (part ++ rest) +
      fractionLength ((part ++ rest).drop (digitsLength (part ++ rest))) ≤ part.length := by omega
  have hexponent := cuts_exponentLength (part.drop (digitsLength (part ++ rest) +
    fractionLength ((part ++ rest).drop (digitsLength (part ++ rest))))) rest behind
  rw [← hdrop _ hd, ← hdrop _ hd, List.length_drop] at hexponent
  rw [hexponent (by omega)]

theorem closingQuote?_pos {q : Char} {escapes : Bool} {cs : List Char} {n : Nat}
    (h : closingQuote? q escapes cs = some n) : 0 < n := by
  obtain ⟨part, rest, -, rfl, hlast, -⟩ := closingQuote?_split h
  cases part with
  | nil => cases hlast
  | cons c part => simp

theorem closingQuote?_cut {q : Char} {escapes : Bool} {n : Nat} (hq : q ≠ '\n')
    (h : closingQuote? q escapes (part ++ rest) = some n) (hn : n ≤ part.length) :
    closingQuote? q escapes (part ++ '\n' :: behind) = some n := by
  induction part using closingQuote?.induct q escapes generalizing n with
  | case1 =>
      have hpos := closingQuote?_pos h
      simp at hn
      omega
  | case2 =>
      cases rest with
      | nil => simpa [closingQuote?, Ne.symm hq] using h
      | cons c rest =>
          by_cases hc : c = q
          · simp only [List.singleton_append, closingQuote?, hc, if_true,
              Option.map_eq_some_iff] at h
            obtain ⟨m, hm, rfl⟩ := h
            simp at hn
          · simpa [closingQuote?, Ne.symm hq, hc] using h
  | case3 c hc =>
      cases rest with
      | nil => simp [closingQuote?, hc] at h
      | cons e rest =>
          simp only [List.singleton_append, closingQuote?, if_neg hc] at h
          split at h <;> obtain ⟨m, hm, rfl⟩ := Option.map_eq_some_iff.mp h
          · simp at hn
          · have hpos := closingQuote?_pos hm
            simp at hn
            omega
  | case4 part ih =>
      simp only [List.cons_append, closingQuote?, if_true, Option.map_eq_some_iff] at h ⊢
      obtain ⟨m, hm, rfl⟩ := h
      exact ⟨m, ih hm (by simpa using hn), rfl⟩
  | case5 e part he => simpa [closingQuote?, he] using h
  | case6 c e part hc he ih =>
      simp only [List.cons_append, closingQuote?, if_neg hc, if_pos he,
        Option.map_eq_some_iff] at h ⊢
      obtain ⟨m, hm, rfl⟩ := h
      exact ⟨m, ih hm (by simpa using hn), rfl⟩
  | case7 c e part hc he ih =>
      simp only [List.cons_append, closingQuote?, if_neg hc, if_neg he,
        Option.map_eq_some_iff] at h ⊢
      obtain ⟨m, hm, rfl⟩ := h
      exact ⟨m, ih hm (by simpa using hn), rfl⟩

theorem closedOrIllegal_cut {k kind : TokenKind} {q : Char} {escapes : Bool} {n : Nat}
    (hq : q ≠ '\n')
    (h : closedOrIllegal k (part ++ rest) (closingQuote? q escapes (part ++ rest)) = ⟨kind, n⟩)
    (hk : kind ≠ .illegal) (hn : n ≤ part.length) :
    closedOrIllegal k (part ++ '\n' :: behind)
      (closingQuote? q escapes (part ++ '\n' :: behind)) = ⟨kind, n⟩ := by
  cases hc : closingQuote? q escapes (part ++ rest) with
  | none =>
      rw [hc] at h
      cases h
      exact absurd rfl hk
  | some m =>
      rw [hc] at h
      cases h
      rw [closingQuote?_cut hq hc hn]
      rfl

theorem commentEnd?_cons (c : Char) (cs : List Char) :
    commentEnd? (c :: cs) =
      if c = '*' ∧ cs.head? = some '/' then some 2 else (commentEnd? cs).map (· + 1) := by
  cases cs with
  | nil => simp [commentEnd?]
  | cons e cs =>
      by_cases h : c = '*' ∧ e = '/'
      · obtain ⟨rfl, rfl⟩ := h
        rfl
      · have hne : ∀ tail, c = '*' → e :: cs = '/' :: tail → False := by
          rintro tail hc heq
          exact h ⟨hc, (List.cons.inj heq).1⟩
        rw [commentEnd?, if_neg (by simpa using h)]
        exact hne

theorem two_le_commentEnd? {cs : List Char} {n : Nat} (h : commentEnd? cs = some n) : 2 ≤ n := by
  induction cs generalizing n with
  | nil => cases h
  | cons c cs ih =>
      rw [commentEnd?_cons] at h
      split at h
      · cases h
        exact Nat.le_refl 2
      · obtain ⟨m, hm, rfl⟩ := Option.map_eq_some_iff.mp h
        exact Nat.le_succ_of_le (ih hm)

-- The end mark is found again, whatever stands behind it.
theorem commentEnd?_cut {n : Nat} (h : commentEnd? (part ++ rest) = some n)
    (hn : n ≤ part.length) : commentEnd? (part ++ behind) = some n := by
  have htwo := two_le_commentEnd? h
  induction part generalizing n with
  | nil =>
      simp at hn
      omega
  | cons c part ih =>
      cases part with
      | nil =>
          simp at hn
          omega
      | cons e part =>
          rw [List.cons_append, commentEnd?_cons, List.cons_append, List.head?_cons] at h ⊢
          split at h
          · rename_i hend
            rw [if_pos hend]
            exact h
          · rename_i hend
            obtain ⟨m, hm, rfl⟩ := Option.map_eq_some_iff.mp h
            rw [if_neg hend, ← List.cons_append, ih hm (by simpa using hn) (two_le_commentEnd? hm)]
            rfl

theorem wordLexeme_cut {kind : TokenKind} {c : Char} {n : Nat}
    (h : wordLexeme d c (part ++ rest) = ⟨kind, n⟩) (hn : n ≤ part.length) :
    wordLexeme d c (part ++ '\n' :: behind) = ⟨kind, n⟩ := by
  have hlength : ((part ++ rest).takeWhile isWordPart).length = n := by
    unfold wordLexeme at h
    dsimp only at h
    split at h <;> cases h <;> rfl
  rw [← h, wordLexeme, wordLexeme, takeWhile_cut (by decide) (hlength ▸ hn)]

theorem numberLexeme_cut {kind : TokenKind} {c : Char} {n : Nat}
    (h : numberLexeme c (part ++ rest) = ⟨kind, n⟩) (hn : n ≤ part.length) :
    numberLexeme c (part ++ '\n' :: behind) = ⟨kind, n⟩ := by
  rw [← h, numberLexeme, numberLexeme]
  cases h
  have hcut := cuts_numberLength (c :: part) rest behind
    (by simp only [List.cons_append, List.length_cons]; omega)
  rw [List.cons_append, List.cons_append] at hcut
  rw [hcut]

theorem otherLexeme_cut {kind : TokenKind} {c : Char} {n : Nat}
    (h : otherLexeme d c (part ++ rest) = ⟨kind, n⟩) (hk : kind ≠ .illegal)
    (hn : n ≤ part.length) : otherLexeme d c (part ++ '\n' :: behind) = ⟨kind, n⟩ := by
  have hquote : d.identifierQuote ≠ '\n' := by cases d <;> decide
  unfold otherLexeme at h ⊢
  split at h
  · rename_i hc
    rw [if_pos hc]
    exact closedOrIllegal_cut (hc ▸ hquote) h hk hn
  rename_i hc
  rw [if_neg hc]
  split at h
  · rename_i hc
    rw [if_pos hc]
    exact closedOrIllegal_cut (by rw [hc]; decide) h hk hn
  rename_i hc
  rw [if_neg hc]
  split at h
  · rename_i hc
    rw [if_pos hc]
    exact numberLexeme_cut h hn
  rename_i hc
  rw [if_neg hc]
  split at h
  · rename_i hc
    rw [if_pos hc]
    exact wordLexeme_cut h hn
  · cases h
    exact absurd rfl hk

theorem colonLexeme_pair (h : rest.head? ≠ some ':') :
    colonLexeme d (':' :: rest) =
      if d.castOperators.contains "::" then ⟨.symbol .doubleColon, 1⟩ else ⟨.symbol .colon, 0⟩ := by
  unfold colonLexeme
  split <;> simp_all

theorem colonLexeme_cut {kind : TokenKind} {n : Nat}
    (h : colonLexeme d (part ++ rest) = ⟨kind, n⟩) (hn : n ≤ part.length) :
    colonLexeme d (part ++ '\n' :: behind) = ⟨kind, n⟩ := by
  match part with
  | [] =>
      obtain rfl : n = 0 := by simpa using hn
      cases d <;> unfold colonLexeme at h <;> split at h <;> cases h <;> rfl
  | [e] =>
      by_cases he : e = ':'
      · subst he
        rw [List.singleton_append, colonLexeme_pair (by simp)]
        by_cases hc : rest.head? = some ':'
        · obtain ⟨rest, rfl⟩ : ∃ tail, rest = ':' :: tail := by
            cases rest with
            | nil => cases hc
            | cons c rest => exact ⟨rest, congrArg (· :: rest) (Option.some.inj hc)⟩
          -- Three colons would reach into the rest.
          cases d <;> cases h <;> first | rfl | (simp at hn)
        · rw [List.singleton_append, colonLexeme_pair hc] at h
          exact h
      · rw [List.singleton_append, colonLexeme_colon (by simpa using he)] at h ⊢
        exact h
  | e :: e' :: part =>
      rw [List.cons_append, List.cons_append] at h ⊢
      rw [← h]
      by_cases he : e = ':'
      · subst he
        by_cases he' : e' = ':'
        · subst he'
          rfl
        · rw [colonLexeme_pair (by simpa using he'), colonLexeme_pair (by simpa using he')]
      · rw [colonLexeme_colon (by simpa using he), colonLexeme_colon (by simpa using he)]

-- What these characters start depends on the one behind them, and takes it if it is one of `next`.
structure Peeks (d : Dialect) (c : Char) (next : List Char) (lone : List Char → Lexeme) : Prop where
  lone : ∀ cs, (∀ e ∈ next, cs.head? ≠ some e) → lexeme d c cs = lone cs
  takes : ∀ e ∈ next, ∀ cs, 0 < (lexeme d c (e :: cs)).tail
  plain : '\n' ∉ next

-- A token that takes the second character does not end with the first.
theorem Peeks.exists_cons {c e : Char} {next : List Char} {lone : List Char → Lexeme}
    {kind : TokenKind} {n : Nat} (hc : Peeks d c next lone)
    (h : lexeme d c (part ++ rest) = ⟨kind, n⟩) (hn : n ≤ part.length) (he : e ∈ next)
    (hhead : (part ++ rest).head? = some e) : ∃ tail, part = e :: tail := by
  cases part with
  | nil =>
      obtain ⟨tail, rfl⟩ := List.head?_eq_some_iff.mp hhead
      have hpos := hc.takes e he tail
      rw [List.nil_append] at h
      have hzero : n = 0 := by simpa using hn
      rw [h, hzero] at hpos
      exact absurd hpos (Nat.lt_irrefl 0)
  | cons c part =>
      obtain rfl : c = e := Option.some.inj hhead
      exact ⟨part, rfl⟩

theorem Peeks.cut {c : Char} {next : List Char} {lone : List Char → Lexeme} {kind : TokenKind} {n : Nat}
    (hc : Peeks d c next lone) (h : lexeme d c (part ++ rest) = ⟨kind, n⟩) (hn : n ≤ part.length)
    (hlone : ∀ cs, lone cs = ⟨kind, n⟩ → cs = part ++ rest →
      lone (part ++ '\n' :: behind) = ⟨kind, n⟩)
    (htaken : ∀ e ∈ next, ∀ tail, part = e :: tail →
      lexeme d c (part ++ '\n' :: behind) = ⟨kind, n⟩) :
    lexeme d c (part ++ '\n' :: behind) = ⟨kind, n⟩ := by
  by_cases hhead : ∃ e ∈ next, (part ++ rest).head? = some e
  · obtain ⟨e, he, hhead⟩ := hhead
    obtain ⟨tail, heq⟩ := hc.exists_cons h hn he hhead
    exact htaken e he tail heq
  · simp only [not_exists, not_and] at hhead
    rw [hc.lone _ hhead] at h
    rw [hc.lone]
    · exact hlone _ h rfl
    · intro e he heq
      cases part with
      | nil => exact hc.plain (Option.some.inj heq ▸ he)
      | cons c part => exact hhead e he heq

-- What the openings of the two kinds of comments start.
theorem lexeme_minus_minus (cs : List Char) : lexeme d '-' ('-' :: cs) =
    ⟨.comment, (('-' :: cs).takeWhile (· != '\n')).length⟩ := rfl

theorem lexeme_slash_star (cs : List Char) : lexeme d '/' ('*' :: cs) =
    closedOrIllegal .comment ('*' :: cs) ((commentEnd? cs).map (· + 1)) := rfl

theorem peeks_minus : Peeks d '-' ['-'] fun _ => ⟨.symbol .minus, 0⟩ where
  lone cs h := lexeme_minus (h '-' (by simp))
  takes e he cs := by
    obtain rfl := List.mem_singleton.mp he
    simp [lexeme]
  plain := by decide

theorem peeks_slash : Peeks d '/' ['*'] fun _ => ⟨.symbol .slash, 0⟩ where
  lone cs h := lexeme_slash (h '*' (by simp))
  takes e he cs := by
    obtain rfl := List.mem_singleton.mp he
    cases hend : commentEnd? cs <;> simp [lexeme, hend, closedOrIllegal]
  plain := by decide

theorem peeks_less : Peeks d '<' ['=', '>'] fun _ => ⟨.symbol .less, 0⟩ where
  lone cs h := lexeme_less (h '=' (by simp)) (h '>' (by simp))
  takes e he cs := by
    simp only [List.mem_cons, List.not_mem_nil, or_false] at he
    rcases he with rfl | rfl <;> exact Nat.one_pos
  plain := by decide

theorem peeks_greater : Peeks d '>' ['='] fun _ => ⟨.symbol .greater, 0⟩ where
  lone cs h := lexeme_greater (h '=' (by simp))
  takes e he cs := by
    obtain rfl := List.mem_singleton.mp he
    exact Nat.one_pos
  plain := by decide

-- What starts a token only in front of one certain character.
theorem peeks_pair {c e : Char} (h : c = '!' ∧ e = '=' ∨ c = '|' ∧ e = '|') :
    Peeks d c [e] (otherLexeme d c) where
  lone cs hcs := by
    have hne := hcs e (by simp)
    unfold lexeme
    rcases h with ⟨rfl, rfl⟩ | ⟨rfl, rfl⟩ <;> split <;> simp_all
  takes e' he cs := by
    obtain rfl := List.mem_singleton.mp he
    rcases h with ⟨rfl, rfl⟩ | ⟨rfl, rfl⟩ <;> exact Nat.one_pos
  plain := by rcases h with ⟨-, rfl⟩ | ⟨-, rfl⟩ <;> decide

theorem lexeme_dot_cut {kind : TokenKind} {n : Nat}
    (h : lexeme d '.' (part ++ rest) = ⟨kind, n⟩) (hn : n ≤ part.length) :
    lexeme d '.' (part ++ '\n' :: behind) = ⟨kind, n⟩ := by
  cases part with
  | nil =>
      have hplain : rest.head?.all (!·.isDigit) = true := by
        cases rest with
        | nil => rfl
        | cons e rest =>
            by_contra hd
            have hd : e.isDigit = true := by simpa using hd
            have hlong := numberLength_of_dot rest hd
            rw [List.nil_append, lexeme_dot_digit hd, numberLexeme] at h
            cases h
            simp at hn
            omega
      rw [List.nil_append, lexeme_dot hplain] at h
      rw [List.nil_append, lexeme_dot (by rfl)]
      exact h
  | cons e part =>
      rw [List.cons_append] at h ⊢
      by_cases he : e.isDigit = true
      · rw [lexeme_dot_digit he] at h ⊢
        rw [← List.cons_append] at h ⊢
        exact numberLexeme_cut h hn
      · have he : e.isDigit = false := by simpa using he
        rw [lexeme_dot (by simp [he])] at h ⊢
        exact h

theorem lexeme_minus_cut {kind : TokenKind} {n : Nat}
    (h : lexeme d '-' (part ++ rest) = ⟨kind, n⟩) (hn : n ≤ part.length) :
    lexeme d '-' (part ++ '\n' :: behind) = ⟨kind, n⟩ := by
  refine peeks_minus.cut h hn (fun _ h _ => h) fun e he tail heq => ?_
  obtain rfl := List.mem_singleton.mp he
  subst heq
  rw [List.cons_append, lexeme_minus_minus, ← List.cons_append] at h ⊢
  have hlength : ((('-' :: tail) ++ rest).takeWhile (· != '\n')).length = n :=
    congrArg Lexeme.tail h
  rw [takeWhile_cut (by decide) (hlength ▸ hn)]
  exact h

theorem lexeme_slash_cut {kind : TokenKind} {n : Nat}
    (h : lexeme d '/' (part ++ rest) = ⟨kind, n⟩) (hk : kind ≠ .illegal) (hn : n ≤ part.length) :
    lexeme d '/' (part ++ '\n' :: behind) = ⟨kind, n⟩ := by
  refine peeks_slash.cut h hn (fun _ h _ => h) fun e he tail heq => ?_
  obtain rfl := List.mem_singleton.mp he
  subst heq
  rw [List.cons_append, lexeme_slash_star] at h ⊢
  cases hend : commentEnd? (tail ++ rest) with
  | none =>
      rw [hend] at h
      cases h
      exact absurd rfl hk
  | some m =>
      rw [hend] at h
      cases h
      rw [commentEnd?_cut hend (by simpa using hn)]
      rfl

-- Of the other special characters each is a token, whatever stands behind it.
theorem special_cases {c : Char} (h : c ∈ specialChars) :
    (∀ cs cs', lexeme d c cs = lexeme d c cs') ∨
      c ∈ ['.', '-', '/', ':', '<', '>', '!', '|', '\''] := by
  by_cases hc : c ∈ ['.', '-', '/', ':', '<', '>', '!', '|', '\'']
  · exact .inr hc
  · have hplain : c ∈ ['(', ')', '[', ']', ',', ';', '+', '*', '%', '='] := by
      simp only [specialChars, List.mem_cons, List.not_mem_nil, or_false] at h hc ⊢
      tauto
    simp only [List.mem_cons, List.not_mem_nil, or_false] at hplain
    refine .inl fun _ _ => ?_
    rcases hplain with rfl | rfl | rfl | rfl | rfl | rfl | rfl | rfl | rfl | rfl <;> rfl

-- A token that ends within the part is the same token in front of a line break.
theorem lexeme_cut {kind : TokenKind} {c : Char} {n : Nat}
    (h : lexeme d c (part ++ rest) = ⟨kind, n⟩) (hk : kind ≠ .illegal)
    (hn : n ≤ part.length) : lexeme d c (part ++ '\n' :: behind) = ⟨kind, n⟩ := by
  have htaken : ∀ {c : Char} (e : Char), (∀ cs cs', lexeme d c (e :: cs) = lexeme d c (e :: cs')) →
      lexeme d c (part ++ rest) = ⟨kind, n⟩ → ∀ tail, part = e :: tail →
        lexeme d c (part ++ '\n' :: behind) = ⟨kind, n⟩ := by
    rintro c e hsame h tail rfl
    rw [← h]
    exact hsame _ _
  by_cases hc : c ∈ specialChars
  · obtain hplain | hc := special_cases (d := d) hc
    · rw [← h]
      exact hplain _ _
    simp only [List.mem_cons, List.not_mem_nil, or_false] at hc
    rcases hc with rfl | rfl | rfl | rfl | rfl | rfl | rfl | rfl | rfl
    · exact lexeme_dot_cut h hn
    · exact lexeme_minus_cut h hn
    · exact lexeme_slash_cut h hk hn
    · exact colonLexeme_cut h hn
    · refine peeks_less.cut h hn (fun _ h _ => h) fun e he => htaken e (fun _ _ => ?_) h
      simp only [List.mem_cons, List.not_mem_nil, or_false] at he
      rcases he with rfl | rfl <;> rfl
    · refine peeks_greater.cut h hn (fun _ h _ => h) fun e he => htaken e (fun _ _ => ?_) h
      obtain rfl := List.mem_singleton.mp he
      rfl
    · refine (peeks_pair (.inl ⟨rfl, rfl⟩)).cut h hn
        (fun cs h heq => otherLexeme_cut (heq ▸ h) hk hn) fun e he => htaken e (fun _ _ => ?_) h
      obtain rfl := List.mem_singleton.mp he
      rfl
    · refine (peeks_pair (.inr ⟨rfl, rfl⟩)).cut h hn
        (fun cs h heq => otherLexeme_cut (heq ▸ h) hk hn) fun e he => htaken e (fun _ _ => ?_) h
      obtain rfl := List.mem_singleton.mp he
      rfl
    · exact closedOrIllegal_cut (by decide) h hk hn
  · rw [lexeme_eq_otherLexeme hc] at h ⊢
    exact otherLexeme_cut h hk hn

end SchemaDiff.Token
