import SchemaDiff.Proofs.Token.Cutting

namespace SchemaDiff

open SchemaDiff.Text

-- The same place of a text that got more bytes in front of it.
def Span.shift (n : Nat) (s : Span) : Span :=
  ⟨s.start + n, s.stop + n⟩

def Token.shift (n : Nat) (t : Token) : Token :=
  { t with span := t.span.shift n }

@[simp] theorem Token.shift_kind (n : Nat) (t : Token) : (t.shift n).kind = t.kind := rfl

@[simp] theorem Token.shift_literal (n : Nat) (t : Token) : (t.shift n).literal = t.literal := rfl

theorem Token.map_shift_zero (tokens : List Token) : tokens.map (Token.shift 0) = tokens :=
  List.map_id tokens

theorem Text.utf8Length_append (cs cs' : List Char) :
    utf8Length (cs ++ cs') = utf8Length cs + utf8Length cs' := by
  induction cs with
  | nil => simp [utf8Length]
  | cons c cs ih =>
      simp only [List.cons_append, utf8Length, ih]
      omega

theorem Text.utf8ByteSize_ofList (cs : List Char) :
    (String.ofList cs).utf8ByteSize = utf8Length cs := by
  induction cs with
  | nil => rfl
  | cons c cs ih =>
      rw [← List.singleton_append, String.ofList_append, String.utf8ByteSize_append, ih,
        ← String.singleton_eq_ofList, String.utf8ByteSize_singleton]
      rfl

theorem Text.utf8Length_toList (text : String) : utf8Length text.toList = text.utf8ByteSize := by
  rw [← utf8ByteSize_ofList, String.ofList_toList]

namespace Token

variable {d : Dialect}

theorem commentEnd?_le {cs : List Char} {n : Nat} (h : commentEnd? cs = some n) : n ≤ cs.length := by
  induction cs generalizing n with
  | nil => cases h
  | cons c cs ih =>
      rw [commentEnd?_cons] at h
      split at h
      · rename_i hend
        cases h
        cases cs with
        | nil => simp at hend
        | cons e cs => simp
      · obtain ⟨m, hm, rfl⟩ := Option.map_eq_some_iff.mp h
        simpa using ih hm

def StartsComment (c : Char) (cs : List Char) : Prop :=
  c = '-' ∧ cs.head? = some '-' ∨ c = '/' ∧ cs.head? = some '*'

theorem lexeme_kind {P : TokenKind → Prop} {c : Char} {cs : List Char}
    (hP : ∀ k, k ≠ .comment → k ≠ .endOfInput → P k) (hcomment : StartsComment c cs → P .comment) :
    P (lexeme d c cs).kind := by
  have hclosed : ∀ {k : TokenKind} (closed : Option Nat), P k →
      P (closedOrIllegal k cs closed).kind := by
    intro k closed hk
    cases closed
    · exact hP .illegal (by simp) (by simp)
    · exact hk
  unfold lexeme
  split
  case h_7 => split_ifs <;> exact hP _ (by simp [numberLexeme]) (by simp [numberLexeme])
  case h_13 => exact hcomment (.inl ⟨rfl, rfl⟩)
  case h_15 => exact hclosed _ (hcomment (.inr ⟨rfl, rfl⟩))
  case h_17 =>
    unfold colonLexeme
    split <;> (try split_ifs) <;> exact hP _ (by simp) (by simp)
  case h_25 => exact hclosed _ (hP _ (by simp) (by simp))
  case h_26 =>
    unfold otherLexeme
    split_ifs
    · exact hclosed _ (hP _ (by simp) (by simp))
    · exact hclosed _ (hP _ (by simp) (by simp))
    · exact hP _ (by simp [numberLexeme]) (by simp [numberLexeme])
    · unfold wordLexeme
      dsimp only
      split <;> exact hP _ (by simp) (by simp)
    · exact hP _ (by simp) (by simp)
  all_goals exact hP _ (by simp) (by simp)

theorem lexeme_ne_endOfInput (d : Dialect) (c : Char) (cs : List Char) :
    (lexeme d c cs).kind ≠ .endOfInput :=
  lexeme_kind (fun _ _ h => h) fun _ => by simp

theorem tail_le {c : Char} {cs : List Char} {kind : TokenKind} {n : Nat}
    (h : lexeme d c cs = ⟨kind, n⟩) (hk : kind ≠ .illegal) : n ≤ cs.length := by
  by_cases hcomment : StartsComment c cs
  · obtain ⟨rfl, hhead⟩ | ⟨rfl, hhead⟩ := hcomment
    · obtain ⟨tail, rfl⟩ := List.head?_eq_some_iff.mp hhead
      cases h
      exact (List.takeWhile_prefix _).length_le
    · obtain ⟨tail, rfl⟩ := List.head?_eq_some_iff.mp hhead
      have hlexeme : lexeme d '/' ('*' :: tail) =
        closedOrIllegal .comment ('*' :: tail) ((commentEnd? tail).map (· + 1)) := rfl
      rw [hlexeme] at h
      cases hend : commentEnd? tail with
      | none =>
          rw [hend] at h
          cases h
          exact absurd rfl hk
      | some m =>
          rw [hend] at h
          cases h
          simpa using commentEnd?_le hend
  · have hne : (lexeme d c cs).kind ≠ .comment :=
      lexeme_kind (fun _ h _ => h) fun h => absurd h hcomment
    rw [h] at hne
    exact (reads_of_lexeme h ⟨hne, hk⟩).length_le

-- No scanner takes more characters than there are, not even one that finds no end of its token.
theorem lexeme_tail_le (d : Dialect) (c : Char) (cs : List Char) :
    (lexeme d c cs).tail ≤ cs.length := by
  by_cases hkind : (lexeme d c cs).kind = .illegal
  · revert hkind
    have hclosed : ∀ {k : TokenKind} (closed : Option Nat), k ≠ .illegal →
        (closedOrIllegal k cs closed).kind = .illegal →
        (closedOrIllegal k cs closed).tail ≤ cs.length := by
      intro k closed hk hillegal
      cases closed with
      | none => exact Nat.le_refl _
      | some n => exact absurd hillegal hk
    unfold lexeme
    split
    case h_7 => split_ifs <;> simp [numberLexeme]
    case h_15 => exact hclosed _ (by simp)
    case h_17 =>
      unfold colonLexeme
      split <;> (try split_ifs) <;> simp
    case h_25 => exact hclosed _ (by simp)
    case h_26 =>
      unfold otherLexeme
      split_ifs
      · exact hclosed _ (by simp)
      · exact hclosed _ (by simp)
      · simp [numberLexeme]
      · unfold wordLexeme
        dsimp only
        split <;> simp
      · simp
    all_goals simp
  · exact tail_le rfl hkind

end Token

namespace Scanner

variable {d : Dialect}

theorem skipBlanks_shift (offset n : Nat) (cs : List Char) :
    skipBlanks (offset + n) cs = ⟨(skipBlanks offset cs).offset + n, (skipBlanks offset cs).rest⟩ := by
  induction cs generalizing offset with
  | nil => rfl
  | cons c cs ih =>
      unfold skipBlanks
      split
      · rw [Nat.add_right_comm, ih]
      · rfl

theorem next_shift (offset n : Nat) (cs : List Char) :
    next d ⟨offset + n, cs⟩ = ((next d ⟨offset, cs⟩).1.shift n,
      ⟨(next d ⟨offset, cs⟩).2.offset + n, (next d ⟨offset, cs⟩).2.rest⟩) := by
  rcases hs : skipBlanks offset cs with ⟨offset', _ | ⟨c, rest⟩⟩
  · simp only [next, skipBlanks_shift, hs]
    rfl
  · simp only [next, skipBlanks_shift, hs, Token.shift, Span.shift, Nat.add_right_comm]

theorem tokens_of_end {s : Scanner} (h : (s.next d).1.kind = .endOfInput) :
    tokens d s = [(s.next d).1] := by
  rw [tokens, if_pos h]

theorem tokens_of_token {s : Scanner} (h : (s.next d).1.kind ≠ .endOfInput) :
    tokens d s = (s.next d).1 :: tokens d (s.next d).2 := by
  rw [tokens, if_neg h]

theorem tokens_shift (offset n : Nat) (cs : List Char) :
    tokens d ⟨offset + n, cs⟩ = (tokens d ⟨offset, cs⟩).map (Token.shift n) := by
  generalize hs : (⟨offset, cs⟩ : Scanner) = s
  induction s using tokens.induct (d := d) generalizing offset cs with
  | case1 s hend =>
      subst hs
      rw [tokens_of_end hend, tokens_of_end (by rw [next_shift]; exact hend), next_shift]
      rfl
  | case2 s hend ih =>
      subst hs
      rw [tokens_of_token hend, tokens_of_token (by rw [next_shift]; exact hend), next_shift,
        ih _ _ rfl]
      rfl

theorem tokens_of_blanks {offset : Nat} {space cs : List Char} (hs : space.all isBlank = true) :
    tokens d ⟨offset, space ++ cs⟩ = tokens d ⟨offset + utf8Length space, cs⟩ := by
  induction space generalizing offset with
  | nil => rfl
  | cons c space ih =>
      obtain ⟨hc, hspace⟩ := Bool.and_eq_true_iff.mp hs
      rw [List.cons_append, tokens_of_blank hc, ih hspace, utf8Length, Nat.add_assoc]

theorem exists_blanks (offset : Nat) (cs : List Char) : ∃ space rest, cs = space ++ rest ∧
    space.all isBlank = true ∧ skipBlanks offset cs = ⟨offset + utf8Length space, rest⟩ := by
  induction cs generalizing offset with
  | nil => exact ⟨[], [], rfl, rfl, rfl⟩
  | cons c cs ih =>
      by_cases hc : isBlank c = true
      · obtain ⟨space, rest, rfl, hspace, hskip⟩ := ih (offset + c.utf8Size)
        refine ⟨c :: space, rest, rfl, by simpa [hc] using hspace, ?_⟩
        rw [skipBlanks, if_pos hc, hskip, utf8Length, Nat.add_assoc]
      · exact ⟨[], c :: cs, rfl, rfl, by rw [skipBlanks, if_neg hc]; rfl⟩

-- What a call gives: the end of input behind blanks, or a token with what is left behind it.
theorem next_cases (offset : Nat) (cs : List Char) :
    (cs.all isBlank = true ∧
      next d ⟨offset, cs⟩ =
        (.atEnd (offset + utf8Length cs), ⟨offset + utf8Length cs, []⟩)) ∨
    ∃ gap c tail rest kind, cs = gap ++ c :: tail ++ rest ∧ gap.all isBlank = true ∧
      isBlank c = false ∧ kind ≠ .endOfInput ∧
      Token.lexeme d c (tail ++ rest) = ⟨kind, tail.length⟩ ∧
      next d ⟨offset, cs⟩ =
        (⟨kind, String.ofList (c :: tail),
          ⟨offset + utf8Length gap, offset + utf8Length (gap ++ c :: tail)⟩⟩,
          ⟨offset + utf8Length (gap ++ c :: tail), rest⟩) := by
  obtain ⟨gap, behind, rfl, hgap, hskip⟩ := exists_blanks offset cs
  cases behind with
  | nil =>
      left
      rw [List.append_nil] at hskip ⊢
      exact ⟨hgap, by simp only [next, hskip]⟩
  | cons c behind =>
      right
      have hle := Token.lexeme_tail_le d c behind
      have hne := Token.lexeme_ne_endOfInput d c behind
      rcases hl : Token.lexeme d c behind with ⟨kind, n⟩
      rw [hl] at hle hne
      refine ⟨gap, c, behind.take n, behind.drop n, kind, ?_, hgap, skipBlanks_eq_cons hskip, hne,
        ?_, ?_⟩
      · rw [List.append_assoc, List.cons_append, List.take_append_drop]
      · rw [List.take_append_drop, List.length_take_of_le hle, hl]
      · simp only [next, hskip, hl, utf8Length_append, Nat.add_assoc]

-- A text is blank, or it begins with a token behind its blanks.
theorem tokens_cases (offset : Nat) (cs : List Char) :
    (cs.all isBlank = true ∧ tokens d ⟨offset, cs⟩ = [.atEnd (offset + utf8Length cs)]) ∨
    ∃ gap c tail rest kind, cs = gap ++ c :: tail ++ rest ∧ gap.all isBlank = true ∧
      isBlank c = false ∧ kind ≠ .endOfInput ∧
      Token.lexeme d c (tail ++ rest) = ⟨kind, tail.length⟩ ∧
      tokens d ⟨offset, cs⟩ =
        ⟨kind, String.ofList (c :: tail),
          ⟨offset + utf8Length gap, offset + utf8Length (gap ++ c :: tail)⟩⟩ ::
            tokens d ⟨offset + utf8Length (gap ++ c :: tail), rest⟩ := by
  obtain ⟨hgap, hnext⟩ | ⟨gap, c, tail, rest, kind, hcs, hgap, hblank, hkind, hlexeme, hnext⟩ :=
    next_cases (d := d) offset cs
  · exact .inl ⟨hgap, by rw [tokens_of_end (by rw [hnext]; rfl), hnext]⟩
  · refine .inr ⟨gap, c, tail, rest, kind, hcs, hgap, hblank, hkind, hlexeme, ?_⟩
    rw [tokens_of_token (by rw [hnext]; exact hkind), hnext]

theorem tokens_of_blank_line {offset : Nat} {gap behind : List Char} (h : gap.all isBlank = true) :
    tokens d ⟨offset, gap ++ '\n' :: behind⟩ =
      tokens d ⟨offset + utf8Length gap + 1, behind⟩ := by
  rw [tokens_of_blanks h, tokens_of_blank (by decide)]
  rfl

-- Up to a token that no illegal one precedes, the text can be cut and continued on a new line: what
-- was read in front of the token is read again.
theorem tokens_cut {offset : Nat} {cs : List Char} {before after : List Token} {t : Token}
    (h : tokens d ⟨offset, cs⟩ = before ++ t :: after) (hbefore : ∀ b ∈ before, b.kind ≠ .illegal) :
    ∃ pre post, cs = pre ++ post ∧ t.span.start = offset + utf8Length pre ∧
      (t.kind = .endOfInput → post = []) ∧
      ∀ behind, tokens d ⟨offset, pre ++ '\n' :: behind⟩ =
        before ++ tokens d ⟨t.span.start + 1, behind⟩ := by
  induction before generalizing offset cs with
  | nil =>
      obtain ⟨hgap, htokens⟩ | ⟨gap, c, tail, rest, kind, rfl, hgap, -, hkind, -, htokens⟩ :=
        tokens_cases (d := d) offset cs
      · rw [htokens] at h
        obtain ⟨rfl, -⟩ := List.cons.inj h
        exact ⟨cs, [], (List.append_nil cs).symm, rfl, fun _ => rfl, fun _ => tokens_of_blank_line hgap⟩
      · rw [htokens] at h
        obtain ⟨rfl, -⟩ := List.cons.inj h
        exact ⟨gap, c :: tail ++ rest, List.append_assoc _ _ _, rfl, fun hend => absurd hend hkind,
          fun _ => tokens_of_blank_line hgap⟩
  | cons b before ih =>
      obtain ⟨-, htokens⟩ | ⟨gap, c, tail, rest, kind, rfl, hgap, hblank, hkind, hlexeme, htokens⟩ :=
        tokens_cases (d := d) offset cs
      · rw [htokens] at h
        simp at h
      · rw [htokens, List.cons_append] at h
        obtain ⟨rfl, hrest⟩ := List.cons.inj h
        have hlegal : kind ≠ .illegal := hbefore _ List.mem_cons_self
        obtain ⟨pre, post, rfl, hstart, hpost, hcut⟩ := ih hrest fun x hx =>
          hbefore x (List.mem_cons_of_mem _ hx)
        refine ⟨gap ++ c :: tail ++ pre, post, (List.append_assoc _ _ _).symm, ?_, hpost,
          fun behind => ?_⟩
        · rw [hstart, utf8Length_append _ pre, Nat.add_assoc]
        · -- The first token is the same, and what follows it is cut as well.
          have hsame : Token.lexeme d c (tail ++ (pre ++ '\n' :: behind)) = ⟨kind, tail.length⟩ := by
            rw [← List.append_assoc] at hlexeme ⊢
            exact Token.lexeme_cut hlexeme hlegal (by simp)
          rw [List.append_assoc, List.append_assoc, tokens_of_blanks hgap,
            tokens_cons hblank hkind hsame, Nat.add_assoc, ← utf8Length_append, hcut,
            List.cons_append]

theorem exists_tokens (s : Scanner) : ∃ before t, tokens d s = before ++ [t] ∧
    t.kind = .endOfInput ∧ ∀ b ∈ before, b.kind ≠ .endOfInput := by
  induction s using tokens.induct (d := d) with
  | case1 s hend => exact ⟨[], (s.next d).1, tokens_of_end hend, hend, by simp⟩
  | case2 s hend ih =>
      obtain ⟨before, t, htokens, ht, hbefore⟩ := ih
      refine ⟨(s.next d).1 :: before, t, by rw [tokens_of_token hend, htokens]; rfl, ht, ?_⟩
      simpa using ⟨hend, hbefore⟩

theorem tokens_semicolon (offset : Nat) (cs : List Char) :
    tokens d ⟨offset, ';' :: cs⟩ =
      ⟨.symbol .semicolon, ";", ⟨offset, offset + 1⟩⟩ :: tokens d ⟨offset + 1, cs⟩ := by
  have hnext : next d ⟨offset, ';' :: cs⟩ =
      (⟨.symbol .semicolon, ";", ⟨offset, offset + 1⟩⟩, ⟨offset + 1, cs⟩) := rfl
  rw [tokens_of_token (by rw [hnext]; simp), hnext]

end Scanner

theorem Token.significant_append (first second : List Token) :
    significant (first ++ second) = significant first ++ significant second :=
  List.filter_append first second

theorem Token.significant_map_shift (n : Nat) (tokens : List Token) :
    significant (tokens.map (Token.shift n)) = (significant tokens).map (Token.shift n) := by
  rw [significant, significant, List.filter_map]
  rfl

namespace Cursor

variable {d : Dialect}

-- The tokens of a text on a line of its own stay the same when a semicolon and another text follow.
theorem ofText_append {x y : String} (h : ∀ t ∈ (ofText d x).ahead, t.kind ≠ .illegal) :
    ofText d (x ++ "\n;" ++ y) =
      ⟨(ofText d x).ahead ++
        ⟨.symbol .semicolon, ";", ⟨x.utf8ByteSize + 1, x.utf8ByteSize + 2⟩⟩ ::
          (ofText d y).ahead.map (Token.shift (x.utf8ByteSize + 2)),
        y.utf8ByteSize + (x.utf8ByteSize + 2)⟩ := by
  obtain ⟨before, t, htokens, hend, hbefore⟩ := Scanner.exists_tokens (d := d) ⟨0, x.toList⟩
  have hlegal : ∀ b ∈ before, b.kind ≠ .illegal := by
    intro b hb hillegal
    refine h b ?_ hillegal
    simp only [ofText, Token.significant, Token.scan, Scanner.ofText, htokens, List.mem_filter]
    exact ⟨List.mem_append_left [t] hb, by simp [hillegal]⟩
  obtain ⟨pre, post, hsplit, hstart, hpost, hcut⟩ := Scanner.tokens_cut htokens hlegal
  rw [hpost hend, List.append_nil] at hsplit
  rw [← hsplit, Nat.zero_add, Text.utf8Length_toList] at hstart
  have hx : (ofText d x).ahead = Token.significant before := by
    simp [ofText, Token.scan, Scanner.ofText, htokens, Token.significant, hend]
  have hscan : Token.scan d (x ++ "\n;" ++ y) = before ++
      ⟨.symbol .semicolon, ";", ⟨x.utf8ByteSize + 1, x.utf8ByteSize + 2⟩⟩ ::
        (Token.scan d y).map (Token.shift (x.utf8ByteSize + 2)) := by
    have htext : (x ++ "\n;" ++ y).toList = pre ++ '\n' :: ';' :: y.toList := by
      rw [← hsplit]
      simp
    rw [Token.scan, Scanner.ofText, htext, hcut, hstart, Scanner.tokens_semicolon, Token.scan,
      Scanner.ofText, ← Scanner.tokens_shift, Nat.zero_add]
  have hahead : Token.significant (Token.scan d (x ++ "\n;" ++ y)) = Token.significant before ++
      ⟨.symbol .semicolon, ";", ⟨x.utf8ByteSize + 1, x.utf8ByteSize + 2⟩⟩ ::
        (Token.significant (Token.scan d y)).map (Token.shift (x.utf8ByteSize + 2)) := by
    rw [hscan, Token.significant_append, ← Token.significant_map_shift]
    rfl
  have hstop : (x ++ "\n;" ++ y).utf8ByteSize = y.utf8ByteSize + (x.utf8ByteSize + 2) := by
    rw [String.utf8ByteSize_append, String.utf8ByteSize_append]
    have htwo : "\n;".utf8ByteSize = 2 := by decide
    omega
  rw [hx, ofText, hahead, hstop]
  rfl

end Cursor

end SchemaDiff
