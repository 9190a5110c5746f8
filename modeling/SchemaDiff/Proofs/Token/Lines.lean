import SchemaDiff.Proofs.Name
import SchemaDiff.Proofs.Token.Coverage

namespace SchemaDiff

open SchemaDiff.Text

variable {d : Dialect}

namespace Token

-- Nothing stands behind the token, or a new line begins.
def EndsLine (rest : List Char) : Prop :=
  rest.head?.all (· == '\n') = true

section EndsLine

variable {c : Char} {cs tail rest behind : List Char} {n : Nat} {kind : TokenKind}

theorem EndsLine.separated (h : EndsLine rest) : Separated rest := by
  unfold EndsLine at h
  unfold Separated
  cases hd : rest.head? with
  | none => rfl
  | some c =>
      rw [hd, Option.all_some, beq_iff_eq] at h
      subst h
      rfl

theorem EndsLine.head?_ne (h : EndsLine rest) (hc : c ≠ '\n') : rest.head? ≠ some c :=
  head?_ne_of_all h (by simpa using hc)

theorem length_of_closedOrIllegal {k : TokenKind} {closed : Option Nat} (hk : k ≠ .illegal)
    (h : closedOrIllegal k cs closed = ⟨.illegal, n⟩) : n = cs.length := by
  cases closed with
  | none =>
      cases h
      rfl
  | some m => exact absurd (congrArg Lexeme.kind h) hk

theorem otherLexeme_of_illegal (h : otherLexeme d c cs = ⟨.illegal, n⟩) :
    n = cs.length ∨ n = 0 ∧ ∀ cs', otherLexeme d c cs' = ⟨.illegal, 0⟩ := by
  unfold otherLexeme at h
  split_ifs at h with hquote hstring hdigit hword
  · exact .inl (length_of_closedOrIllegal (by simp) h)
  · exact .inl (length_of_closedOrIllegal (by simp) h)
  · cases h
  · unfold wordLexeme at h
    dsimp only at h
    split at h <;> cases h
  · cases h
    refine .inr ⟨rfl, fun cs' => ?_⟩
    rw [otherLexeme, if_neg hquote, if_neg hstring, if_neg hdigit, if_neg hword]

theorem Peeks.of_illegal {next : List Char} {lone : List Char → Lexeme} (hc : Peeks d c next lone)
    (h : lexeme d c cs = ⟨.illegal, n⟩) (hbehind : EndsLine behind)
    (htaken : ∀ e ∈ next, ∀ tail, cs = e :: tail → n = cs.length)
    (hlone : lone cs = ⟨.illegal, n⟩ → n = cs.length ∨ n = 0 ∧ lone behind = ⟨.illegal, 0⟩) :
    n = cs.length ∨ n = 0 ∧ lexeme d c behind = ⟨.illegal, 0⟩ := by
  have hplain : ∀ e ∈ next, behind.head? ≠ some e := fun e he =>
    hbehind.head?_ne fun heq => hc.plain (heq ▸ he)
  rw [hc.lone behind hplain]
  by_cases hhead : ∃ e ∈ next, cs.head? = some e
  · obtain ⟨e, he, hhead⟩ := hhead
    obtain ⟨tail, rfl⟩ := List.head?_eq_some_iff.mp hhead
    exact .inl (htaken e he tail rfl)
  · simp only [not_exists, not_and] at hhead
    exact hlone ((hc.lone cs hhead).symm.trans h)

-- A token is illegal because it is not closed, and then nothing stands behind it, or because of its
-- only character.
theorem lexeme_of_illegal (h : lexeme d c cs = ⟨.illegal, n⟩) (hbehind : EndsLine behind) :
    n = cs.length ∨ n = 0 ∧ lexeme d c behind = ⟨.illegal, 0⟩ := by
  have hother : otherLexeme d c cs = ⟨.illegal, n⟩ →
      n = cs.length ∨ n = 0 ∧ otherLexeme d c behind = ⟨.illegal, 0⟩ := fun h => by
    obtain hn | ⟨hn, hother⟩ := otherLexeme_of_illegal h
    · exact .inl hn
    · exact .inr ⟨hn, hother behind⟩
  by_cases hc : c ∈ specialChars
  · obtain hplain | hc := special_cases (d := d) hc
    · have hle := lexeme_tail_le d c []
      rw [hplain [] cs, h] at hle
      obtain rfl : n = 0 := Nat.le_zero.mp hle
      exact .inr ⟨rfl, (hplain behind cs).trans h⟩
    simp only [List.mem_cons, List.not_mem_nil, or_false] at hc
    rcases hc with rfl | rfl | rfl | rfl | rfl | rfl | rfl | rfl | rfl
    · cases cs with
      | nil => cases h
      | cons e cs =>
          by_cases he : e.isDigit = true
          · rw [lexeme_dot_digit he] at h
            cases h
          · rw [lexeme_dot (by simpa using he)] at h
            cases h
    · refine peeks_minus.of_illegal h hbehind ?_ fun h => by cases h
      rintro e he tail rfl
      obtain rfl := List.mem_singleton.mp he
      cases h
    · refine peeks_slash.of_illegal h hbehind ?_ fun h => by cases h
      rintro e he tail rfl
      obtain rfl := List.mem_singleton.mp he
      exact length_of_closedOrIllegal (k := .comment) (by simp) h
    · have hkind : (colonLexeme d cs).kind = .illegal := congrArg Lexeme.kind h
      unfold colonLexeme at hkind
      split at hkind
      · split_ifs at hkind
      · split_ifs at hkind
      · cases hkind
    · refine peeks_less.of_illegal h hbehind ?_ fun h => by cases h
      rintro e he tail rfl
      simp only [List.mem_cons, List.not_mem_nil, or_false] at he
      rcases he with rfl | rfl <;> cases h
    · refine peeks_greater.of_illegal h hbehind ?_ fun h => by cases h
      rintro e he tail rfl
      obtain rfl := List.mem_singleton.mp he
      cases h
    · refine (peeks_pair (.inl ⟨rfl, rfl⟩)).of_illegal h hbehind ?_ hother
      rintro e he tail rfl
      obtain rfl := List.mem_singleton.mp he
      cases h
    · refine (peeks_pair (.inr ⟨rfl, rfl⟩)).of_illegal h hbehind ?_ hother
      rintro e he tail rfl
      obtain rfl := List.mem_singleton.mp he
      cases h
    · exact .inl (length_of_closedOrIllegal (k := .string) (by simp) h)
  · rw [lexeme_eq_otherLexeme hc] at h ⊢
    exact hother h

theorem takeWhile_eq_of_length {f : Char → Bool}
    (h : ((tail ++ rest).takeWhile f).length = tail.length) : (tail ++ rest).takeWhile f = tail :=
  (List.prefix_of_prefix_length_le (List.takeWhile_prefix f) (List.prefix_append tail rest)
    h.le).eq_of_length h

-- A comment ends with its line or with its end mark.
theorem lexeme_of_comment (h : lexeme d c (tail ++ rest) = ⟨.comment, tail.length⟩)
    (hbehind : EndsLine behind) : lexeme d c (tail ++ behind) = ⟨.comment, tail.length⟩ := by
  have hstarts : (lexeme d c (tail ++ rest)).kind = .comment → StartsComment c (tail ++ rest) :=
    lexeme_kind (P := fun k => k = .comment → StartsComment c (tail ++ rest))
      (fun k hk _ h => absurd h hk) fun h _ => h
  obtain ⟨rfl, hhead⟩ | ⟨rfl, hhead⟩ := hstarts (congrArg Lexeme.kind h)
  · obtain ⟨body, rfl⟩ := peeks_minus.exists_cons h (Nat.le_refl _) (by simp) hhead
    rw [List.cons_append, lexeme_minus_minus, ← List.cons_append] at h ⊢
    have hline := takeWhile_eq_of_length (congrArg Lexeme.tail h)
    have hbody : ∀ e ∈ '-' :: body, (e != '\n') = true := fun e he =>
      List.mem_takeWhile_imp (p := (· != '\n')) (hline.symm ▸ he)
    rw [takeWhile_append_of_all hbody (by simpa [EndsLine, bne] using hbehind)]
  · obtain ⟨body, rfl⟩ := peeks_slash.exists_cons h (Nat.le_refl _) (by simp) hhead
    rw [List.cons_append, lexeme_slash_star] at h ⊢
    cases hend : commentEnd? (body ++ rest) with
    | none =>
        rw [hend] at h
        cases h
    | some n =>
        rw [hend] at h
        obtain rfl : n = body.length := Nat.succ.inj (congrArg Lexeme.tail h)
        rw [commentEnd?_cut hend (Nat.le_refl _)]
        rfl

-- What stands behind a token matters only if it continues its line.
theorem lexeme_of_endsLine (h : lexeme d c (tail ++ rest) = ⟨kind, tail.length⟩)
    (hbehind : EndsLine behind) (hend : rest = [] → behind = []) :
    lexeme d c (tail ++ behind) = ⟨kind, tail.length⟩ := by
  by_cases hillegal : kind = .illegal
  · subst hillegal
    obtain hlength | ⟨hlength, hbehind⟩ := lexeme_of_illegal h hbehind
    · have hrest : rest = [] := by simpa using hlength
      rw [hend hrest, ← hrest]
      exact h
    · rw [List.length_eq_zero_iff] at hlength
      subst hlength
      exact hbehind
  by_cases hcomment : kind = .comment
  · subst hcomment
    exact lexeme_of_comment h hbehind
  have hne : kind ≠ .endOfInput := by
    have hne := lexeme_ne_endOfInput d c (tail ++ rest)
    rwa [h] at hne
  have hspells := (reads_of_lexeme h ⟨hcomment, hillegal⟩).spells
  rw [List.take_left] at hspells
  exact hspells behind (ends_of_separated ⟨hcomment, hne, hillegal⟩ hbehind.separated)

end EndsLine

-- The text is one token of this kind.
def Single (d : Dialect) (kind : TokenKind) (text : String) : Prop :=
  scan d text = [⟨kind, text, ⟨0, text.utf8ByteSize⟩⟩, .atEnd text.utf8ByteSize]

theorem single_of_lexeme {text : String} {kind : TokenKind} {c : Char} {tail : List Char}
    (htext : text.toList = c :: tail) (hblank : isBlank c = false) (hkind : kind ≠ .endOfInput)
    (hlexeme : lexeme d c tail = ⟨kind, tail.length⟩) : Single d kind text := by
  have hbare : lexeme d c (tail ++ []) = ⟨kind, tail.length⟩ := by rw [List.append_nil, hlexeme]
  have htokens : Scanner.tokens d ⟨0, c :: tail ++ []⟩ = _ := Scanner.tokens_cons hblank hkind hbare
  rw [List.append_nil, ← htext, String.ofList_toList, Scanner.tokens_nil, Nat.zero_add,
    utf8Length_toList] at htokens
  exact htokens

-- The texts of the tokens, each on a line of its own.
def lines (ts : List Token) : String :=
  "\n".intercalate (ts.map literal)

theorem lines_singleton (t : Token) : (lines [t]).toList = t.literal.toList := by
  rw [lines, List.map_singleton, String.intercalate_singleton]

theorem lines_cons_cons (t t' : Token) (ts : List Token) :
    (lines (t :: t' :: ts)).toList = t.literal.toList ++ '\n' :: (lines (t' :: ts)).toList := by
  rw [lines, List.map_cons, List.map_cons, String.intercalate_cons_cons, ← List.map_cons, ← lines,
    String.toList_append, String.toList_append, List.append_assoc]
  rfl

end Token

namespace Scanner

open Token

-- The induction is on the calls. A literal that nothing closes has the end of input behind it, so
-- that no line follows its own.
theorem tokens_lines (s : Scanner) : ∃ front,
    tokens d s = front ++ [.atEnd (s.offset + utf8Length s.rest)] ∧
    (∀ offset, (tokens d ⟨offset, (lines front).toList⟩).map face = (tokens d s).map face) ∧
    ∀ t ∈ front, t.kind ≠ .endOfInput ∧ Single d t.kind t.literal := by
  induction s using tokens.induct (d := d) with
  | case1 s hend =>
      obtain ⟨-, hnext⟩ | ⟨gap, c, tail, rest, kind, -, -, -, hkind, -, hnext⟩ :=
        next_cases (d := d) s.offset s.rest
      · rw [tokens_of_end hend, hnext]
        refine ⟨[], rfl, fun offset => ?_, by simp⟩
        rw [show (lines []).toList = [] from rfl, tokens_nil]
        rfl
      · rw [hnext] at hend
        exact absurd hend hkind
  | case2 s hend ih =>
      obtain ⟨-, hnext⟩ | ⟨gap, c, tail, rest, kind, -, -, hblank, hkind, hlexeme, hnext⟩ :=
        next_cases (d := d) s.offset s.rest
      · rw [hnext] at hend
        exact absurd rfl hend
      have hends := (s.passes_next (d := d)).ends
      rw [tokens_of_token hend]
      rw [hnext] at ih hends ⊢
      rw [← hends]
      obtain ⟨front, htokens, hlines, hfront⟩ := ih
      have hline : ∀ behind, EndsLine behind → (rest = [] → behind = []) → ∀ offset,
          tokens d ⟨offset, c :: tail ++ behind⟩ =
            ⟨kind, String.ofList (c :: tail), ⟨offset, offset + utf8Length (c :: tail)⟩⟩ ::
              tokens d ⟨offset + utf8Length (c :: tail), behind⟩ := fun _ hbehind hrest _ =>
        tokens_cons hblank hkind (lexeme_of_endsLine hlexeme hbehind hrest)
      have halone : lexeme d c (tail ++ []) = ⟨kind, tail.length⟩ :=
        lexeme_of_endsLine hlexeme rfl fun _ => rfl
      rw [List.append_nil] at halone
      refine ⟨_ :: front, congrArg (_ :: ·) htokens, fun offset => ?_,
        List.forall_mem_cons.mpr ⟨⟨hkind, single_of_lexeme String.toList_ofList hblank hkind
          halone⟩, hfront⟩⟩
      cases front with
      | nil =>
          have hlast := hline [] rfl (fun _ => rfl) offset
          rw [List.append_nil, tokens_nil] at hlast
          rw [lines_singleton, String.toList_ofList, hlast, htokens]
          rfl
      | cons t' front =>
          have hrest : rest ≠ [] := by
            rintro rfl
            rw [tokens_nil] at htokens
            simp at htokens
          rw [lines_cons_cons, String.toList_ofList, hline ('\n' :: _) rfl fun h => absurd h hrest,
            tokens_of_blank (by decide), List.map_cons, hlines]
          rfl

end Scanner

-- Each token is told by its own text: on lines of their own, the tokens of a text are read as
-- they were, and a token alone is read as itself.
theorem Token.scan_lines (d : Dialect) (text : String) :
    ∃ front, scan d text = front ++ [.atEnd text.utf8ByteSize] ∧
      (∀ t ∈ front, t.kind ≠ .endOfInput) ∧
      (scan d (lines front)).map face = (scan d text).map face ∧
      ∀ t ∈ front, Single d t.kind t.literal := by
  obtain ⟨front, htokens, hlines, hfront⟩ := Scanner.tokens_lines (d := d) (Scanner.ofText text)
  rw [Scanner.ofText, Nat.zero_add, utf8Length_toList] at htokens
  exact ⟨front, htokens, fun t ht => (hfront t ht).1, hlines 0, fun t ht => (hfront t ht).2⟩

end SchemaDiff
