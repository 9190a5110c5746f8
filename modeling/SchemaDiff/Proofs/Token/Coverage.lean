import Mathlib.Data.List.Chain
import SchemaDiff.Proofs.Token.Places

namespace SchemaDiff

open SchemaDiff.Text

variable {d : Dialect}

-- The characters stand in the text at the bytes of the span, which begins and ends between
-- characters.
def Text.IsAt (text : List Char) (s : Span) (cs : List Char) : Prop :=
  ∃ before after, text = before ++ cs ++ after ∧ utf8Length before = s.start ∧
    utf8Length (before ++ cs) = s.stop

def Text.BlankBetween (text : List Char) (s s' : Span) : Prop :=
  ∃ gap, gap.all isBlank = true ∧ IsAt text ⟨s.stop, s'.start⟩ gap

namespace Scanner

-- From `offset` on a text is cut into tokens: the scanner for the first character of a token finds
-- where it ends, blanks may stand in front of it, and the end of input comes last.
inductive Covers (d : Dialect) : Nat → List Char → List Token → Prop
  | atEnd {offset : Nat} {gap : List Char} (hgap : gap.all isBlank = true) :
      Covers d offset gap [.atEnd (offset + utf8Length gap)]
  | cons {offset : Nat} {gap tail rest : List Char} {c : Char} {kind : TokenKind}
      {tokens : List Token} (hgap : gap.all isBlank = true) (hkind : kind ≠ .endOfInput)
      (hlexeme : Token.lexeme d c (tail ++ rest) = ⟨kind, tail.length⟩)
      (h : Covers d (offset + utf8Length (gap ++ c :: tail)) rest tokens) :
      Covers d offset (gap ++ c :: tail ++ rest)
        (⟨kind, String.ofList (c :: tail),
          ⟨offset + utf8Length gap, offset + utf8Length (gap ++ c :: tail)⟩⟩ :: tokens)

theorem covers_tokens (s : Scanner) : Covers d s.offset s.rest (tokens d s) := by
  induction s using tokens.induct (d := d) with
  | case1 s hend =>
      rw [tokens_of_end hend]
      obtain ⟨hblank, hnext⟩ | ⟨gap, c, tail, rest, kind, -, -, -, hkind, -, hnext⟩ :=
        next_cases (d := d) s.offset s.rest
      · rw [hnext]
        exact .atEnd hblank
      · rw [hnext] at hend
        exact absurd hend hkind
  | case2 s hend ih =>
      rw [tokens_of_token hend]
      obtain ⟨-, hnext⟩ | ⟨gap, c, tail, rest, kind, hcs, hgap, -, hkind, hlexeme, hnext⟩ :=
        next_cases (d := d) s.offset s.rest
      · rw [hnext] at hend
        exact absurd rfl hend
      · rw [hnext] at ih ⊢
        rw [hcs]
        exact .cons hgap hkind hlexeme ih

namespace Covers

variable {offset : Nat} {cs r : List Char} {ts : List Token}

theorem offset_le (h : Covers d offset cs ts) : ∀ t ∈ ts, offset ≤ t.span.start := by
  induction h with
  | atEnd hgap => simp [Token.atEnd]
  | cons hgap hkind hlexeme h ih =>
      rw [List.forall_mem_cons]
      refine ⟨Nat.le_add_right _ _, fun t ht => ?_⟩
      exact Nat.le_trans (Nat.le_add_right _ _) (ih t ht)

theorem inOrder (h : Covers d offset cs ts) :
    ts.Pairwise fun t t' => t.span.start < t.span.stop ∧ t.span.stop ≤ t'.span.start := by
  induction h with
  | atEnd hgap => exact List.pairwise_singleton _ _
  | @cons _ _ _ _ c _ _ _ _ _ h ih =>
      refine List.pairwise_cons.mpr ⟨fun t ht => ⟨?_, h.offset_le t ht⟩, ih⟩
      have hpos := c.utf8Size_pos
      simp only [utf8Length_append, utf8Length]
      omega

theorem ends (h : Covers d offset cs ts) : ∃ front,
    ts = front ++ [.atEnd (offset + utf8Length cs)] ∧
      ∀ t ∈ front, t.kind ≠ .endOfInput ∧ t.literal ≠ "" := by
  induction h with
  | atEnd hgap => exact ⟨[], rfl, by simp⟩
  | @cons offset _ _ rest _ _ _ hgap hkind hlexeme h ih =>
      obtain ⟨front, rfl, hfront⟩ := ih
      have hsum : ∀ first, offset + utf8Length (first ++ rest) =
          offset + utf8Length first + utf8Length rest := fun first => by
        rw [utf8Length_append, Nat.add_assoc]
      rw [hsum]
      exact ⟨_ :: front, rfl,
        List.forall_mem_cons.mpr ⟨⟨hkind, by simp [← String.toList_inj]⟩, hfront⟩⟩

theorem length_le (h : Covers d offset cs ts) : ts.length ≤ cs.length + 1 := by
  induction h with
  | atEnd hgap => simp
  | cons hgap hkind hlexeme h ih =>
      simp only [List.length_cons, List.length_append]
      omega

-- Where the text begins with what was read before.
theorem literals (h : Covers d (utf8Length r) cs ts) :
    ∀ t ∈ ts, IsAt (r ++ cs) t.span t.literal.toList := by
  generalize hoffset : utf8Length r = offset at h
  induction h generalizing r with
  | @atEnd _ gap hgap =>
      subst hoffset
      rw [List.forall_mem_singleton]
      exact ⟨r ++ gap, [], by simp [Token.atEnd], utf8Length_append _ _,
        by simp [Token.atEnd, utf8Length_append]⟩
  | @cons _ gap tail rest c kind _ hgap hkind hlexeme h ih =>
      subst hoffset
      have hrest := ih (r := r ++ (gap ++ c :: tail)) (utf8Length_append _ _)
      refine List.forall_mem_cons.mpr ⟨⟨r ++ gap, rest, ?_, utf8Length_append _ _, ?_⟩, ?_⟩
      · simp
      · simp [utf8Length_append]
      · simpa using hrest

theorem gaps (h : Covers d (utf8Length r) cs ts) {s : Span} (hs : s.stop = utf8Length r) :
    List.IsChain (BlankBetween (r ++ cs)) (s :: ts.map Token.span) := by
  generalize hoffset : utf8Length r = offset at h
  induction h generalizing r s with
  | @atEnd _ gap hgap =>
      subst hoffset
      refine List.isChain_pair.mpr ⟨gap, hgap, r, [], by simp, hs.symm, ?_⟩
      exact utf8Length_append _ _
  | @cons _ gap tail rest c kind _ hgap hkind hlexeme h ih =>
      subst hoffset
      have hrest := ih (r := r ++ (gap ++ c :: tail)) (s := ⟨utf8Length r + utf8Length gap,
        utf8Length r + utf8Length (gap ++ c :: tail)⟩) (utf8Length_append _ _).symm
        (utf8Length_append _ _)
      refine List.isChain_cons_cons.mpr ⟨⟨gap, hgap, r, c :: tail ++ rest, ?_, hs.symm, ?_⟩, ?_⟩
      · simp
      · exact utf8Length_append _ _
      · simpa using hrest

end Covers

-- The scanner after so many calls.
def behind (d : Dialect) : Nat → Scanner → Scanner
  | 0, s => s
  | n + 1, s => behind d n (s.next d).2

theorem behind_end (offset n : Nat) : behind d n ⟨offset, []⟩ = ⟨offset, []⟩ := by
  induction n with
  | zero => rfl
  | succ n ih => exact ih

-- The calls give the tokens one after the other, and then the end of input for ever.
theorem next_behind (s : Scanner) (n : Nat) :
    ((behind d n s).next d).1 =
      (tokens d s).getD n (.atEnd (s.offset + utf8Length s.rest)) := by
  induction s using tokens.induct (d := d) generalizing n with
  | case1 s hend =>
      rw [tokens_of_end hend]
      cases n with
      | zero => rfl
      | succ n =>
          obtain ⟨-, hnext⟩ | ⟨_, _, _, _, _, -, -, -, hkind, -, hnext⟩ :=
            next_cases (d := d) s.offset s.rest
          · rw [behind, hnext, behind_end]
            rfl
          · rw [hnext] at hend
            exact absurd hend hkind
  | case2 s hend ih =>
      rw [tokens_of_token hend]
      cases n with
      | zero => rfl
      | succ n =>
          rw [behind, ih, (s.passes_next (d := d)).ends]
          rfl

end Scanner

-- The tokens are the text, cut at the boundaries of characters, but for blanks between them.
structure Token.Tiles (text : String) (ts : List Token) : Prop where
  ends : ∃ front, ts = front ++ [.atEnd text.utf8ByteSize] ∧
    ∀ t ∈ front, t.kind ≠ .endOfInput ∧ t.literal ≠ ""
  inOrder : ts.Pairwise fun t t' => t.span.start < t.span.stop ∧ t.span.stop ≤ t'.span.start
  literals : ∀ t ∈ ts, IsAt text.toList t.span t.literal.toList
  -- The empty span stands for the start of the text.
  gaps : List.IsChain (BlankBetween text.toList) (⟨0, 0⟩ :: ts.map Token.span)

-- Splitting a text into tokens comes to an end, loses no character and takes none twice. A call
-- behind the end gives the end again.
theorem Token.scan_tiles (d : Dialect) (text : String) :
    Scanner.Covers d 0 text.toList (scan d text) ∧ Tiles text (scan d text) ∧
      (scan d text).length ≤ text.length + 1 ∧
      ∀ n, ((Scanner.behind d n (Scanner.ofText text)).next d).1 =
        (scan d text).getD n (.atEnd text.utf8ByteSize) := by
  have hcovers := Scanner.covers_tokens (d := d) (Scanner.ofText text)
  have hends := hcovers.ends
  have hcalls := Scanner.next_behind (d := d) (Scanner.ofText text)
  simp only [Scanner.ofText, Nat.zero_add, utf8Length_toList] at hends hcalls
  exact ⟨hcovers, ⟨hends, hcovers.inOrder, hcovers.literals (r := []), hcovers.gaps (r := []) rfl⟩,
    hcovers.length_le, hcalls⟩

end SchemaDiff
