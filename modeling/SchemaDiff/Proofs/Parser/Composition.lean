import SchemaDiff.Proofs.Parser.Framing
import SchemaDiff.Proofs.Parser.Productions

namespace SchemaDiff.Parser

-- The parser takes no notice of what surrounds the text.
abbrev Composes {α : Type} (f : Frame) (p : Parser α) : Prop :=
  (framed f).Respects p

namespace Composes

variable {n : Nat} {behind : List Token} {f : Frame} {d : Dialect}

section Expressions

theorem startsClause_eq (k : Keyword) {rest : List Token}
    (hb : ∀ t ∈ behind.head?, t.kind = .symbol .semicolon) :
    startsClause k (rest.map (Token.shift n) ++ behind).head? = startsClause k rest.head? := by
  cases rest with
  | cons t rest => cases k <;> rfl
  | nil =>
      refine startsClause_of_ne_null fun t ht => ?_
      rw [hb t ht]
      simp

-- The end of the text and the semicolon behind it stop an expression alike.
theorem splitExpr_within (place : ExprPlace) (depth : Nat) (isFirst : Bool) (ts : List Token)
    (hb : ∀ t ∈ behind.head?, t.kind = .symbol .semicolon) :
    splitExpr place depth isFirst (ts.map (Token.shift n) ++ behind) =
      ⟨(splitExpr place depth isFirst ts).body.map (Token.shift n),
        (splitExpr place depth isFirst ts).rest.map (Token.shift n) ++ behind,
        (splitExpr place depth isFirst ts).stop⟩ := by
  induction ts generalizing depth isFirst with
  | nil =>
      cases behind with
      | nil => rfl
      | cons t rest =>
          have ht : t.kind = .symbol .semicolon := hb t rfl
          simp [splitExpr, stopAt?, ht]
  | cons t ts ih =>
      have hstop : stopAt? place depth isFirst (t.shift n) (ts.map (Token.shift n) ++ behind).head? =
          stopAt? place depth isFirst t ts.head? := by
        unfold stopAt?
        simp only [Token.shift_kind, startsClause_eq _ hb]
      rw [List.map_cons, List.cons_append, splitExpr, splitExpr, hstop]
      split
      · rfl
      · have hdepth : depthAfter depth (t.shift n) = depthAfter depth t := rfl
        rw [hdepth, ih]
        rfl

theorem legal_of_inside {place : ExprPlace} {depth : Nat} {isFirst : Bool} {kinds : List TokenKind}
    (h : Inside place depth isFirst kinds) : ∀ k ∈ kinds, k ≠ .illegal := by
  induction kinds generalizing depth isFirst with
  | nil => simp
  | cons k kinds ih =>
      obtain ⟨hk, hrest⟩ := h
      rw [List.forall_mem_cons]
      refine ⟨?_, ih hrest⟩
      rintro rfl
      cases hk

theorem exprOf_map_shift (body : List Token) : exprOf (body.map (Token.shift n)) = exprOf body := by
  simp only [exprOf, List.map_map]
  rfl

theorem firstColumn?_map_shift (body : List Token) :
    firstColumn? (body.map (Token.shift n)) = firstColumn? body := by
  induction body with
  | nil => rfl
  | cons t body ih =>
      rw [List.map_cons, firstColumn?, firstColumn?, ih, List.head?_map, Option.any_map]
      rfl

theorem exprBody (place : ExprPlace) (c : Context) :
    (framed f).Alike SameBody (Parser.exprBody place c) (Parser.exprBody place c) := by
  intro s s' hs
  have hsplit := splitExpr_within (n := f.front) place 0 true s.ahead hs.resumes
  rw [← hs.ahead] at hsplit
  obtain ⟨hsource, hinside, -⟩ := splitExpr_source place 0 true s.ahead
  have hread : s.Reaches { s with ahead := (splitExpr place 0 true s.ahead).rest } :=
    ⟨_, hsource, fun t ht => legal_of_inside hinside _ (List.mem_map_of_mem ht)⟩
  have hrest : Cursor.Within f { s with ahead := (splitExpr place 0 true s.ahead).rest }
      { s' with ahead := (splitExpr place 0 true s'.ahead).rest } := by
    refine hs.of_suffix hsource rfl rfl ?_
    rw [hsplit]
  have hcurrent := hrest.current_eq
  have hfail (e : Expected) := (fail_framed e c _ _ hrest : Outcome f SameBody _ _ _).after hread
  have hstop : (splitExpr place 0 true s'.ahead).stop = (splitExpr place 0 true s.ahead).stop := by
    rw [hsplit]
  have hbody : (splitExpr place 0 true s'.ahead).body =
      (splitExpr place 0 true s.ahead).body.map (Token.shift f.front) := by
    rw [hsplit]
  unfold Parser.exprBody
  dsimp only
  rw [hstop, hbody, List.isEmpty_map]
  split
  · split
    · exact hfail _
    · exact .done ⟨exprOf_map_shift _, firstColumn?_map_shift _⟩ hrest hread
  · exact hfail _
  · exact hfail _
  · refine .failed hread (by simp [ParseError.expected?]) fun hb => ⟨_, ?_, hrest⟩
    rw [hcurrent hb]
    rfl

end Expressions

section Tables

theorem withQuoteHint {α : Type} {body : Parser α} (word : String) (h : Composes f body) :
    Composes f (Parser.withQuoteHint word body) := by
  intro s s' hs
  obtain ⟨hok, herror⟩ := h s s' hs
  unfold Parser.withQuoteHint
  cases hbody : body s with
  | ok a u =>
      obtain ⟨_, u', hbody', rfl, hu, hread⟩ := hok a u hbody
      rw [hbody']
      exact .done rfl hu hread
  | error e u =>
      obtain ⟨hread, hspan, hsame⟩ := herror e u hbody
      obtain ⟨fault, context⟩ := e
      cases fault with
      | unexpected expected found hint =>
          refine .failed hread hspan fun hb => ?_
          obtain ⟨u', hbody', hu⟩ := hsame hb
          exact ⟨u', by rw [hbody']; rfl, hu⟩
      | nestingTooDeep bracket =>
          refine .failed hread hspan fun hb => ?_
          obtain ⟨u', hbody', hu⟩ := hsame hb
          exact ⟨u', by rw [hbody']; rfl, hu⟩
      | constraintOnModify column =>
          refine .failed hread hspan fun hb => ?_
          obtain ⟨u', hbody', hu⟩ := hsame hb
          exact ⟨u', by rw [hbody']; rfl, hu⟩

theorem optionName_within (known : List (List String)) (name : List String) (ts : List Token)
    (hb : ∀ t ∈ behind.head?, t.kind = .symbol .semicolon) :
    optionName known name (ts.map (Token.shift n) ++ behind) =
      ((optionName known name ts).1, (optionName known name ts).2.map (Token.shift n) ++ behind) := by
  induction ts generalizing name with
  | nil =>
      cases behind with
      | nil => rfl
      | cons t rest => simp [optionName, optionWord?, hb t rfl]
  | cons t ts ih =>
      rw [List.map_cons, List.cons_append, optionName, optionName]
      have hword : optionWord? (t.shift n) = optionWord? t := rfl
      rw [hword]
      split
      · dsimp only
        split
        · exact ih _
        · rfl
      · rfl

theorem optionName_source (known : List (List String)) (name : List String) (ts : List Token) :
    ∃ read, ts = read ++ (optionName known name ts).2 ∧ ∀ t ∈ read, t.kind ≠ .illegal := by
  induction ts generalizing name with
  | nil => exact ⟨[], rfl, by simp⟩
  | cons t ts ih =>
      rw [optionName]
      split
      · rename_i word hword
        dsimp only
        split
        · obtain ⟨read, hread, hlegal⟩ := ih (name ++ [word])
          refine ⟨t :: read, by rw [List.cons_append, ← hread], ?_⟩
          rw [List.forall_mem_cons]
          refine ⟨fun hkind => ?_, hlegal⟩
          simp [optionWord?, hkind] at hword
        · exact ⟨[], rfl, by simp⟩
      · exact ⟨[], rfl, by simp⟩

theorem knownOptionName : Composes f (Parser.knownOptionName d) := by
  intro s s' hs
  obtain ⟨read, hread, hlegal⟩ := optionName_source d.tableOptions [] s.ahead
  have hwithin := optionName_within (n := f.front) d.tableOptions [] s.ahead hs.resumes
  rw [← hs.ahead] at hwithin
  refine .done ?_ (hs.of_suffix hread rfl rfl ?_) ⟨read, hread, hlegal⟩
  · rw [hwithin]
  · rw [hwithin]

end Tables

theorem notValid : Composes f Parser.notValid := by
  intro s s' hs
  rw [notValid_eq, notValid_eq, hs.matches_current.reads.kind_beq (by simp)]
  by_cases hnot : s.current.kind = .keyword .not
  · obtain ⟨t, rest, ht⟩ : ∃ t rest, s.ahead = t :: rest := by
      cases ht : s.ahead with
      | nil => simp [Cursor.current, ht, Token.atEnd] at hnot
      | cons t rest => exact ⟨t, rest, rfl⟩
    have hnext : s'.ahead.tail.head?.any (·.kind == .keyword .valid) =
        s.ahead.tail.head?.any (·.kind == .keyword .valid) := by
      rw [hs.ahead, ht]
      cases rest with
      | cons u rest => rfl
      | nil =>
          cases hb : f.behind with
          | nil => rfl
          | cons b rest => simp [hs.resumes b (by simp [hb])]
    rw [hnext]
    split
    · rename_i hvalid
      have hkind : s.next.current.kind = .keyword .valid := by
        rw [hnot, beq_self_eq_true, Bool.true_and, ht] at hvalid
        cases rest with
        | nil => cases hvalid
        | cons u rest => simpa [Cursor.next, Cursor.current, ht] using hvalid
      exact .done rfl ((hs.next (by simp [hnot])).next (by simp [hkind]))
        ((Cursor.Reaches.next (by simp [hnot])).trans (.next (by simp [hkind])))
    · exact .done rfl hs (.refl s)
  · have hnot : (s.current.kind == .keyword .not) = false := by simpa using hnot
    rw [hnot, Bool.false_and, Bool.false_and, if_neg (by simp), if_neg (by simp)]
    exact .done rfl hs (.refl s)

theorem rel_optionValue? (t : Token) (n : Nat) :
    Option.Rel Eq (optionValue? t) (optionValue? (t.shift n)) := by
  show Option.Rel Eq (optionValue? t) (optionValue? t)
  cases optionValue? t with
  | none => exact .none
  | some value => exact .some rfl

end Composes

instance (f : Frame) : (framed f).Lawful where
  current hs := hs.matches_current
  next hs hend := hs.next hend
  reads ht := ht.reads
  done hR hu hread := .done hR hu hread
  after h hread := h.after hread
  mono hRQ h := h.mono hRQ
  bind h h' := bind_framed h h'
  fail e c := fail_framed e c
  onModify hs c := by
    intro u u' hu
    refine .failed (.refl u) (by simp [ParseError.expected?]) fun hb => ⟨u', ?_, hu⟩
    rw [hs.current_eq hb]
    rfl
  many h := many_framed h
  exprBody place c := Composes.exprBody place c
  quoteHint ht hend h := by
    rw [ht.eq_shift hend, Token.shift_literal]
    exact Composes.withQuoteHint _ h
  optionName d := Composes.knownOptionName
  value ht := by
    obtain rfl | ⟨hend, hsemicolon⟩ := ht
    · exact Composes.rel_optionValue? _ f.front
    · simp [optionValue?, hend, hsemicolon]
  notValid := Composes.notValid

namespace Composes

variable {f : Frame} {d : Dialect}

-- A statement that has begun is read alike.
theorem statements? {s s' : Cursor} (hs : s.Within f s') (ht : s'.current = s.current.shift f.front) :
    Outcome f Eq s (Parser.statements? d s) (Parser.statements? d s') := by
  have hkind : s'.current.kind = s.current.kind := by rw [ht, Token.shift_kind]
  refine Outcome.mono (fun o o' ho => ?_) (Likeness.Respects.statements? (L := framed f) hs hkind)
  cases ho with
  | none => rfl
  | some h =>
      have heq : ∀ s s', Statement.Like Eq s s' → s = s' := fun _ _ hs => hs.eq_of fun _ _ _ hv => hv
      exact congrArg some (List.forall₂_eq_eq_eq ▸ h.imp heq)

end Composes

end SchemaDiff.Parser
