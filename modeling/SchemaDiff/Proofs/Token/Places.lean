import SchemaDiff.Parser.Cursor
import SchemaDiff.Proofs.Token.Scanning

namespace SchemaDiff

open SchemaDiff.Text

variable {d : Dialect}

namespace Scanner

-- A token lies between the place of the scanner and the place of the scanner behind it.
structure Passes (s : Scanner) (t : Token) (s' : Scanner) : Prop where
  start : s.offset ≤ t.span.start
  stop : t.span.stop = s'.offset
  nonempty : t.kind ≠ .endOfInput → t.span.start < t.span.stop
  ends : s'.offset + utf8Length s'.rest = s.offset + utf8Length s.rest

theorem passes_next (s : Scanner) : s.Passes (s.next d).1 (s.next d).2 := by
  obtain ⟨-, hnext⟩ | ⟨gap, c, tail, rest, kind, hcs, -, -, -, -, hnext⟩ :=
    next_cases (d := d) s.offset s.rest
  · rw [hnext]
    exact ⟨Nat.le_add_right _ _, rfl, fun h => absurd rfl h, rfl⟩
  · rw [hnext]
    have hpos := c.utf8Size_pos
    refine ⟨Nat.le_add_right _ _, rfl, fun _ => ?_, ?_⟩
    · simp only [utf8Length_append, utf8Length]
      omega
    · rw [hcs, utf8Length_append _ rest, Nat.add_assoc]

theorem tokens_within (s : Scanner) : ∀ t ∈ tokens d s, s.offset ≤ t.span.start ∧
    t.span.stop ≤ s.offset + utf8Length s.rest ∧
      (t.kind ≠ .endOfInput → t.span.start < t.span.stop) := by
  induction s using tokens.induct (d := d) with
  | case1 s hend =>
      obtain ⟨hstart, hstop, hnonempty, hends⟩ := s.passes_next (d := d)
      intro t ht
      rw [tokens_of_end hend, List.mem_singleton] at ht
      subst ht
      exact ⟨hstart, by omega, hnonempty⟩
  | case2 s hend ih =>
      obtain ⟨hstart, hstop, hnonempty, hends⟩ := s.passes_next (d := d)
      have hlt := hnonempty hend
      intro t ht
      rw [tokens_of_token hend] at ht
      rcases List.mem_cons.mp ht with rfl | ht
      · exact ⟨hstart, by omega, hnonempty⟩
      · obtain ⟨hbehind, hbefore, hpos⟩ := ih t ht
        exact ⟨by omega, by omega, hpos⟩

theorem pairwise_tokens (s : Scanner) :
    (tokens d s).Pairwise fun t t' => t.span.stop ≤ t'.span.start := by
  induction s using tokens.induct (d := d) with
  | case1 s hend =>
      rw [tokens_of_end hend]
      exact List.pairwise_singleton _ _
  | case2 s hend ih =>
      rw [tokens_of_token hend]
      refine List.pairwise_cons.mpr ⟨fun t ht => ?_, ih⟩
      rw [(s.passes_next (d := d)).stop]
      exact (tokens_within _ t ht).1

end Scanner

namespace Cursor

-- The tokens ahead begin one behind the other, and all of them in front of the end of the text.
structure Ordered (s : Cursor) : Prop where
  inOrder : s.ahead.Pairwise fun t t' => t.span.start < t'.span.start
  inText : ∀ t ∈ s.ahead, t.span.start < s.stop

theorem ordered_ofText (d : Dialect) (text : String) : (ofText d text).Ordered := by
  have hmem : ∀ t ∈ (ofText d text).ahead,
      t.span.stop ≤ text.utf8ByteSize ∧ t.span.start < t.span.stop := by
    intro t ht
    simp only [ofText, Token.significant, List.mem_filter, Bool.and_eq_true, bne_iff_ne] at ht
    obtain ⟨-, hstop, hlt⟩ := Scanner.tokens_within _ t ht.1
    simp only [Scanner.ofText, utf8Length_toList] at hstop
    exact ⟨by omega, hlt ht.2.2⟩
  constructor
  · have hpairwise : (ofText d text).ahead.Pairwise fun t t' => t.span.stop ≤ t'.span.start :=
      (Scanner.pairwise_tokens _).filter _
    refine hpairwise.imp_of_mem fun {t t'} ht _ hle => ?_
    exact Nat.lt_of_lt_of_le (hmem t ht).2 hle
  · intro t ht
    obtain ⟨hstop, hlt⟩ := hmem t ht
    exact Nat.lt_of_lt_of_le hlt hstop

-- `s'` stands where `s` stands, or further on in the same text.
structure LeadsTo (s s' : Cursor) : Prop where
  suffix : s'.ahead <:+ s.ahead
  stop : s'.stop = s.stop

namespace LeadsTo

variable {s t u : Cursor}

theorem refl (s : Cursor) : s.LeadsTo s :=
  ⟨List.suffix_refl _, rfl⟩

theorem trans (h : s.LeadsTo t) (h' : t.LeadsTo u) : s.LeadsTo u :=
  ⟨h'.suffix.trans h.suffix, h'.stop.trans h.stop⟩

theorem next (s : Cursor) : s.LeadsTo s.next :=
  ⟨List.tail_suffix _, rfl⟩

theorem ordered (h : s.LeadsTo u) (hs : s.Ordered) : u.Ordered := by
  refine ⟨hs.inOrder.sublist h.suffix.sublist, fun t ht => ?_⟩
  rw [h.stop]
  exact hs.inText t (h.suffix.subset ht)

-- A cursor that has moved stands at a token that begins later.
theorem eq_or_lt (h : s.LeadsTo u) (hs : s.Ordered) :
    u = s ∨ s.current.span.start < u.current.span.start := by
  obtain ⟨read, hread⟩ := h.suffix
  cases read with
  | nil =>
      left
      cases s
      cases u
      obtain rfl := h.stop
      obtain rfl := hread
      rfl
  | cons t read =>
      right
      have hcurrent : s.current = t := by simp [current, ← hread]
      rw [hcurrent]
      cases hu : u.ahead with
      | nil =>
          have hend : u.current.span.start = s.stop := by
            simp [current, hu, Token.atEnd, h.stop]
          rw [hend]
          exact hs.inText t (by simp [← hread])
      | cons v rest =>
          have hv : u.current = v := by simp [current, hu]
          have horder := hs.inOrder
          rw [← hread, List.cons_append, List.pairwise_cons] at horder
          rw [hv]
          exact horder.1 v (by simp [hu])

theorem start_le (h : s.LeadsTo u) (hs : s.Ordered) :
    s.current.span.start ≤ u.current.span.start := by
  rcases h.eq_or_lt hs with rfl | hlt
  · exact Nat.le_refl _
  · exact Nat.le_of_lt hlt

-- Only a cursor that has not moved stands at the same token.
theorem eq_of_current_eq (h : s.LeadsTo u) (hs : s.Ordered) (hcurrent : u.current = s.current) :
    u = s := by
  rcases h.eq_or_lt hs with heq | hlt
  · exact heq
  · rw [hcurrent] at hlt
    omega

end LeadsTo

theorem Ordered.start_le {s : Cursor} (h : s.Ordered) : s.current.span.start ≤ s.stop := by
  unfold current
  cases hs : s.ahead with
  | nil => exact Nat.le_refl _
  | cons t rest => exact Nat.le_of_lt (h.inText t (by simp [hs]))

end Cursor

end SchemaDiff
