import SchemaDiff.Proofs.Parser.Likeness
import SchemaDiff.Proofs.Token.Scanning

namespace SchemaDiff

-- What a longer text has around a text: the bytes in front of it, the tokens behind it, and the
-- offset where the longer text ends.
structure Frame where
  front : Nat
  behind : List Token
  stop : Nat

variable {α β : Type} {n : Nat} {f : Frame}

def ParseFault.shift (n : Nat) : ParseFault → ParseFault
  | unexpected expected found hint => unexpected expected (found.shift n) hint
  | nestingTooDeep bracket => nestingTooDeep (bracket.shift n)
  | constraintOnModify column => constraintOnModify (column.shift n)

-- The same error in a text that got more bytes in front of it.
def ParseError.shift (n : Nat) (e : ParseError) : ParseError :=
  { e with fault := e.fault.shift n }

-- A cursor of a text in its own right, and the cursor at the same place when the text stands in the
-- frame. Behind the text there is nothing, or a semicolon and more.
structure Cursor.Within (f : Frame) (s s' : Cursor) : Prop where
  ahead : s'.ahead = s.ahead.map (Token.shift f.front) ++ f.behind
  stop : s'.stop = f.stop
  ends : f.behind = [] → f.stop = s.stop + f.front
  resumes : ∀ t ∈ f.behind.head?, t.kind = .symbol .semicolon
  inner : ∀ t ∈ s.ahead, t.kind ≠ .endOfInput

-- The current tokens at the two cursors. The end of the one text may be a semicolon in the other.
def Token.Matches (n : Nat) (t t' : Token) : Prop :=
  t' = t.shift n ∨ t.kind = .endOfInput ∧ t'.kind = .symbol .semicolon

namespace Token.Matches

variable {t t' : Token}

theorem eq_shift (h : Token.Matches n t t') (ht : t.kind ≠ .endOfInput) : t' = t.shift n :=
  h.resolve_right fun hend => ht hend.1

theorem reads (h : Token.Matches n t t') : t.ReadsLike t' := by
  obtain rfl | hends := h
  · exact .inl ⟨rfl, .inr rfl⟩
  · exact .inr hends

end Token.Matches

namespace Cursor

namespace Within

variable {s s' : Cursor}

theorem current_eq (h : s.Within f s') (hb : f.behind = []) :
    s'.current = s.current.shift f.front := by
  unfold current
  rw [h.ahead, hb, List.append_nil, h.stop, h.ends hb]
  cases s.ahead with
  | cons t rest => rfl
  | nil => simp [Token.atEnd, Token.shift, Span.shift]

theorem matches_current (h : s.Within f s') : Token.Matches f.front s.current s'.current := by
  cases hb : f.behind with
  | nil => exact .inl (h.current_eq hb)
  | cons b rest =>
      unfold current
      rw [h.ahead]
      cases hs : s.ahead with
      | cons t rest => exact .inl rfl
      | nil => exact .inr ⟨rfl, by simpa [hb] using h.resumes b (by simp [hb])⟩

theorem next (h : s.Within f s') (ht : s.current.kind ≠ .endOfInput) :
    s.next.Within f s'.next := by
  refine ⟨?_, h.stop, h.ends, h.resumes, fun t ht => h.inner t (List.mem_of_mem_tail ht)⟩
  simp only [Cursor.next, h.ahead]
  cases hs : s.ahead with
  | nil => exact absurd (by simp [current, hs, Token.atEnd]) ht
  | cons t rest => rfl

-- A cursor further on in the text.
theorem of_suffix {u u' : Cursor} (h : s.Within f s') {read : List Token}
    (hread : s.ahead = read ++ u.ahead) (hstop : u.stop = s.stop) (hstop' : u'.stop = s'.stop)
    (hahead : u'.ahead = u.ahead.map (Token.shift f.front) ++ f.behind) : u.Within f u' :=
  ⟨hahead, hstop'.trans h.stop, hstop ▸ h.ends, h.resumes, fun t ht =>
    h.inner t (by rw [hread]; exact List.mem_append_right read ht)⟩

theorem length_eq (h : s.Within f s') :
    s'.ahead.length = s.ahead.length + f.behind.length := by
  simp [h.ahead]

end Within

end Cursor

namespace Parser

-- What the parsers make of the text on its own and of the text within a longer one. If there is
-- more behind it, nothing is said about errors: reading may go on there.
structure Outcome (f : Frame) (R : α → α → Prop) (s : Cursor)
    (result result' : EStateM.Result ParseError Cursor α) : Prop where
  ok : ∀ a u, result = .ok a u →
    ∃ a' u', result' = .ok a' u' ∧ R a a' ∧ u.Within f u' ∧ s.Reaches u
  error : ∀ e u, result = .error e u → s.Reaches u ∧ (e.expected?.isSome → e.span = u.current.span) ∧
    (f.behind = [] → ∃ u', result' = .error (e.shift f.front) u' ∧ u.Within f u')

variable {R : α → α → Prop} {Q : β → β → Prop}

namespace Outcome

variable {s s' t : Cursor}

theorem done {a a' : α} {u u' : Cursor} (hR : R a a') (hu : u.Within f u') (hread : s.Reaches u) :
    Outcome f R s (.ok a u) (.ok a' u') where
  ok b v hb := by
    cases hb
    exact ⟨a', u', rfl, hR, hu, hread⟩
  error e v he := by cases he

theorem failed {e : ParseError} {u : Cursor} {result' : EStateM.Result ParseError Cursor α}
    (hread : s.Reaches u) (hspan : e.expected?.isSome → e.span = u.current.span)
    (h : f.behind = [] → ∃ u', result' = .error (e.shift f.front) u' ∧ u.Within f u') :
    Outcome f R s (.error e u) result' where
  ok b v hb := by cases hb
  error e' v he := by
    cases he
    exact ⟨hread, hspan, h⟩

theorem after {result result' : EStateM.Result ParseError Cursor α} (h : Outcome f R t result result')
    (hread : s.Reaches t) : Outcome f R s result result' where
  ok a u ha := by
    obtain ⟨a', u', ha', hR, hu, hread'⟩ := h.ok a u ha
    exact ⟨a', u', ha', hR, hu, hread.trans hread'⟩
  error e u he := by
    obtain ⟨hread', hspan, herror⟩ := h.error e u he
    exact ⟨hread.trans hread', hspan, herror⟩

theorem mono {Q : α → α → Prop} {result result' : EStateM.Result ParseError Cursor α}
    (hRQ : ∀ a a', R a a' → Q a a') (h : Outcome f R s result result') :
    Outcome f Q s result result' where
  ok a u ha := by
    obtain ⟨a', u', ha', hR, hu⟩ := h.ok a u ha
    exact ⟨a', u', ha', hRQ a a' hR, hu⟩
  error := h.error

end Outcome

-- A text on its own against the text within a longer one.
def framed (f : Frame) : Likeness where
  Cursors := Cursor.Within f
  Tokens := Token.Matches f.front
  Outcome := Outcome f
  Values := Eq

theorem bind_framed {p p' : Parser α} {q q' : α → Parser β} {s s' : Cursor}
    (h : Outcome f R s (p s) (p' s')) (h' : ∀ a a', R a a' → (framed f).Alike Q (q a) (q' a')) :
    Outcome f Q s ((p >>= q) s) ((p' >>= q') s') := by
  show Outcome f Q s (EStateM.bind p q s) (EStateM.bind p' q' s')
  unfold EStateM.bind
  cases hp : p s with
  | ok a u =>
      obtain ⟨a', u', hp', hR, hu, hread⟩ := h.ok a u hp
      rw [hp']
      exact (h' a a' hR u u' hu).after hread
  | error e u =>
      obtain ⟨hread, hspan, herror⟩ := h.error e u hp
      refine .failed hread hspan fun hb => ?_
      obtain ⟨u', hp', hu⟩ := herror hb
      exact ⟨u', by rw [hp'], hu⟩

theorem fail_framed (e : Expected) (c : Context) :
    (framed f).Alike R (Parser.fail e c) (Parser.fail e c) := by
  intro s s' hs
  refine .failed (.refl s) (fun _ => rfl) fun hb => ⟨s', ?_, hs⟩
  rw [Parser.fail, hs.current_eq hb]
  rfl

-- One round of the loop.
theorem many_step {step step' : Parser (Option α)} {s s' u u' : Cursor} {a a' : α}
    (hstep : step s = .ok (some a) u) (hstep' : step' s' = .ok (some a') u') (hR : R a a')
    (hs : s.Within f s') (hu : u.Within f u') (hread : s.Reaches u)
    (ih : u.ahead.length < s.ahead.length →
      Outcome f (List.Forall₂ R) u (Parser.many step u) (Parser.many step' u')) :
    Outcome f (List.Forall₂ R) s (Parser.many step s) (Parser.many step' s') := by
  have hlength := hs.length_eq
  have hlength' := hu.length_eq
  rw [Parser.many, Parser.many, hstep, hstep']
  by_cases hlt : u.ahead.length < s.ahead.length
  · have hlt' : u'.ahead.length < s'.ahead.length := by omega
    simp only [if_pos hlt, if_pos hlt']
    obtain ⟨hok, herror⟩ := ih hlt
    cases hrest : Parser.many step u with
    | ok rest v =>
        obtain ⟨rest', v', hrest', hsame, hv, hread'⟩ := hok rest v hrest
        rw [hrest']
        exact .done (.cons hR hsame) hv (hread.trans hread')
    | error e v =>
        obtain ⟨hread', hspan, hsame⟩ := herror e v hrest
        refine .failed (hread.trans hread') hspan fun hb => ?_
        obtain ⟨v', hrest', hv⟩ := hsame hb
        exact ⟨v', by rw [hrest'], hv⟩
  · have hlt' : ¬u'.ahead.length < s'.ahead.length := by omega
    simp only [if_neg hlt, if_neg hlt']
    exact .done (.cons hR .nil) hu hread

theorem many_framed {step step' : Parser (Option α)}
    (h : (framed f).Alike (Option.Rel R) step step') :
    (framed f).Alike (List.Forall₂ R) (Parser.many step) (Parser.many step') := by
  intro s s' hs
  induction hn : s.ahead.length using Nat.strong_induction_on generalizing s s' with
  | _ n ih =>
      subst hn
      obtain ⟨hok, herror⟩ := h s s' hs
      cases hstep : step s with
      | error e u =>
          obtain ⟨hread, hspan, hsame⟩ := herror e u hstep
          rw [Parser.many, hstep]
          refine .failed hread hspan fun hb => ?_
          obtain ⟨u', hstep', hu⟩ := hsame hb
          exact ⟨u', by rw [Parser.many, hstep'], hu⟩
      | ok o u =>
          obtain ⟨o', u', hstep', hR, hu, hread⟩ := hok o u hstep
          cases hR with
          | none =>
              rw [Parser.many, Parser.many, hstep, hstep']
              exact .done .nil hu hread
          | some hR => exact many_step hstep hstep' hR hs hu hread fun hlt => ih _ hlt u u' hu rfl

end Parser

end SchemaDiff
