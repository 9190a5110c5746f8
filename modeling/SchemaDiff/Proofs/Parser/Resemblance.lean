import SchemaDiff.Proofs.Parser.Productions

namespace SchemaDiff

variable {d : Dialect}

-- The tokens differ in their places, and in how a reserved keyword is written. Either way of writing
-- it is one for the keyword.
structure Token.Resembles (d : Dialect) (t t' : Token) : Prop where
  kind : t'.kind = t.kind
  literal : t.IsReserved ∨ t'.literal = t.literal
  keyword : ∀ k, t.kind = .keyword k → d.keyword? t.literal = some k ∧ d.keyword? t'.literal = some k

-- As many tokens are ahead, and each of them resembles its counterpart.
def Cursor.Resembles (d : Dialect) (s s' : Cursor) : Prop :=
  List.Forall₂ (Token.Resembles d) s.ahead s'.ahead

-- Unless it is a reserved keyword, the value is the same.
def Ident.SameUnlessReserved (d : Dialect) (v v' : Ident) : Prop :=
  (∀ k, d.keyword? v.raw = some k → k.isReserved = false) → v = v'

namespace Parser

-- Both runs come to results that are related, or both fail for the same reason.
inductive SameOutcome {α : Type} (d : Dialect) (R : α → α → Prop) :
    EStateM.Result ParseError Cursor α → EStateM.Result ParseError Cursor α → Prop
  | ok {a a' : α} {u u' : Cursor} (hR : R a a') (hu : u.Resembles d u') :
      SameOutcome d R (.ok a u) (.ok a' u')
  | error {e e' : ParseError} {u u' : Cursor} (hcontext : e'.context = e.context)
      (hexpected : e'.expected? = e.expected?) : SameOutcome d R (.error e u) (.error e' u')

-- One text against another with the same tokens, apart from how reserved keywords are written.
def resembling (d : Dialect) : Likeness where
  Cursors := Cursor.Resembles d
  Tokens := Token.Resembles d
  Outcome R _ := SameOutcome d R
  Values := Ident.SameUnlessReserved d

end Parser

namespace Token.Resembles

open SchemaDiff.Parser

variable {t t' : Token} (h : t.Resembles d t')

include h

theorem literal_eq (hr : ∀ k, t.kind = .keyword k → k.isReserved = false) :
    t'.literal = t.literal := by
  refine h.literal.resolve_left ?_
  rintro ⟨k, hk, hreserved⟩
  rw [hr k hk] at hreserved
  cases hreserved

theorem kind_beq (k : TokenKind) : (t'.kind == k) = (t.kind == k) := by
  rw [h.kind]

-- However a keyword is written, in upper case it is one word.
theorem upper_literal (k : Keyword) (hk : t.kind = .keyword k) :
    Text.upper t'.literal = Text.upper t.literal := by
  have hupper : ∀ {word : String}, d.keyword? word = some k → k.text = Text.upper word := by
    intro word hword
    have hfind := (Option.filter_eq_some_iff.mp hword).1
    simpa using List.find?_some hfind
  obtain ⟨hword, hword'⟩ := h.keyword k hk
  rw [← hupper hword, ← hupper hword']

theorem exprToken_eq : exprToken t' = exprToken t := by
  unfold exprToken
  rw [h.kind]
  split
  · rfl
  · rename_i hkind
    rw [h.literal_eq (by simp [hkind])]
  · rename_i hkind
    rw [h.literal_eq (by simp [hkind])]
  · rename_i hkeyword _ _
    rw [h.literal_eq fun k hk => absurd hk (hkeyword k)]

theorem exprName?_eq : exprName? t' = exprName? t := by
  unfold exprName?
  rw [h.kind]
  split
  · rename_i hkind
    rw [h.literal_eq (by simp [hkind])]
  · rename_i hkind
    rw [h.literal_eq (by simp [hkind])]
  · rfl

theorem optionWord?_eq : optionWord? t' = optionWord? t := by
  unfold optionWord?
  rw [h.kind]
  split
  · rename_i hkind
    rw [h.literal_eq (by simp [hkind])]
  · rename_i hkind
    rw [h.upper_literal _ hkind]
  · rfl

theorem optionValue?_rel :
    Option.Rel (Ident.SameUnlessReserved d) (optionValue? t) (optionValue? t') := by
  unfold optionValue?
  rw [h.kind]
  cases hkind : t.kind with
  | keyword k =>
      refine .some fun hreserved => ?_
      have hk := hreserved k (h.keyword k hkind).1
      rw [h.literal_eq fun k' hk' => TokenKind.keyword.inj (hkind.symm.trans hk') ▸ hk]
  | quotedIdentifier q => exact .some fun _ => by rw [h.literal_eq (by simp [hkind])]
  | identifier => exact .some fun _ => by rw [h.literal_eq (by simp [hkind])]
  | number => exact .some fun _ => by rw [h.literal_eq (by simp [hkind])]
  | string => exact .some fun _ => by rw [h.literal_eq (by simp [hkind])]
  | _ => exact .none

theorem depthAfter_eq (depth : Nat) : depthAfter depth t' = depthAfter depth t := by
  rw [depthAfter, depthAfter, h.kind]

end Token.Resembles

namespace Cursor.Resembles

variable {s s' : Cursor} (h : s.Resembles d s')

include h

theorem current : s.current.Resembles d s'.current := by
  obtain ⟨ahead, stop⟩ := s
  obtain ⟨ahead', stop'⟩ := s'
  cases h with
  | nil => exact ⟨rfl, .inr rfl, fun k hk => by cases hk⟩
  | cons ht _ => exact ht

theorem next : s.next.Resembles d s'.next := by
  obtain ⟨ahead, stop⟩ := s
  obtain ⟨ahead', stop'⟩ := s'
  cases h with
  | nil => exact .nil
  | cons _ hrest => exact hrest

theorem length_eq : s'.ahead.length = s.ahead.length :=
  (List.Forall₂.length_eq h).symm

end Cursor.Resembles

namespace Parser

variable {α β : Type} {R : α → α → Prop} {Q : β → β → Prop} {ts ts' : List Token}

theorem any_head?_kind (h : List.Forall₂ (Token.Resembles d) ts ts') (k : TokenKind) :
    ts'.head?.any (·.kind == k) = ts.head?.any (·.kind == k) := by
  cases h with
  | nil => rfl
  | cons ht _ => exact ht.kind_beq k

theorem startsClause_of_resembles (k : Keyword) (h : List.Forall₂ (Token.Resembles d) ts ts') :
    startsClause k ts'.head? = startsClause k ts.head? := by
  cases k with
  | not => exact any_head?_kind h _
  | _ => rfl

theorem stopAt?_of_resembles (place : ExprPlace) (depth : Nat) (isFirst : Bool) {t t' : Token}
    (ht : t.Resembles d t') (h : List.Forall₂ (Token.Resembles d) ts ts') :
    stopAt? place depth isFirst t' ts'.head? = stopAt? place depth isFirst t ts.head? := by
  unfold stopAt?
  simp only [ht.kind, startsClause_of_resembles _ h]

-- The expressions end at the same token.
theorem splitExpr_of_resembles (place : ExprPlace) (depth : Nat) (isFirst : Bool)
    (h : List.Forall₂ (Token.Resembles d) ts ts') :
    List.Forall₂ (Token.Resembles d) (splitExpr place depth isFirst ts).body
        (splitExpr place depth isFirst ts').body ∧
      List.Forall₂ (Token.Resembles d) (splitExpr place depth isFirst ts).rest
        (splitExpr place depth isFirst ts').rest ∧
      (splitExpr place depth isFirst ts').stop = (splitExpr place depth isFirst ts).stop := by
  induction h generalizing depth isFirst with
  | nil => exact ⟨.nil, .nil, rfl⟩
  | cons ht hrest ih =>
      rw [splitExpr, splitExpr, stopAt?_of_resembles place depth isFirst ht hrest,
        ht.depthAfter_eq]
      split
      · exact ⟨.nil, .cons ht hrest, rfl⟩
      · obtain ⟨hbody, hbehind, hstop⟩ := ih (depthAfter depth _) false
        exact ⟨.cons ht hbody, hbehind, hstop⟩

theorem sameBody_of_resembles (h : List.Forall₂ (Token.Resembles d) ts ts') : SameBody ts ts' := by
  constructor
  · unfold exprOf
    congr 1
    induction h with
    | nil => rfl
    | cons ht _ ih => rw [List.map_cons, List.map_cons, ht.exprToken_eq, ih]
  · induction h with
    | nil => rfl
    | cons ht hrest ih => rw [firstColumn?, firstColumn?, any_head?_kind hrest, ht.exprName?_eq, ih]

theorem exprBody_resembling (place : ExprPlace) (c : Context) :
    (resembling d).Alike SameBody (exprBody place c) (exprBody place c) := by
  intro s s' hs
  obtain ⟨hbody, hrest, hstop⟩ := splitExpr_of_resembles place 0 true hs
  unfold exprBody
  dsimp only
  rw [hstop]
  have hempty : (splitExpr place 0 true s'.ahead).body.isEmpty =
      (splitExpr place 0 true s.ahead).body.isEmpty := by
    rw [Bool.eq_iff_iff, List.isEmpty_iff_length_eq_zero, List.isEmpty_iff_length_eq_zero,
      hbody.length_eq]
  rw [hempty]
  split
  · split
    · exact .error rfl rfl
    · exact .ok (sameBody_of_resembles hbody) hrest
  · exact .error rfl rfl
  · exact .error rfl rfl
  · exact .error rfl rfl

theorem optionName_of_resembles (known : List (List String)) (name : List String)
    (h : List.Forall₂ (Token.Resembles d) ts ts') :
    (optionName known name ts).1 = (optionName known name ts').1 ∧
      List.Forall₂ (Token.Resembles d) (optionName known name ts).2 (optionName known name ts').2 := by
  induction h generalizing name with
  | nil => exact ⟨rfl, .nil⟩
  | cons ht hrest ih =>
      rw [optionName, optionName, ht.optionWord?_eq]
      split
      · dsimp only
        split
        · exact ih _
        · exact ⟨rfl, .cons ht hrest⟩
      · exact ⟨rfl, .cons ht hrest⟩

theorem bind_resembling {p p' : Parser α} {q q' : α → Parser β} {s s' : Cursor}
    (h : SameOutcome d R (p s) (p' s')) (h' : ∀ a a', R a a' → (resembling d).Alike Q (q a) (q' a')) :
    SameOutcome d Q ((p >>= q) s) ((p' >>= q') s') := by
  show SameOutcome d Q (EStateM.bind p q s) (EStateM.bind p' q' s')
  unfold EStateM.bind
  generalize p s = result at h ⊢
  generalize p' s' = result' at h ⊢
  cases h with
  | ok hR hu => exact h' _ _ hR _ _ hu
  | error hcontext hexpected => exact .error hcontext hexpected

-- What the hint says is not asked for.
theorem withQuoteHint_resembling {body : Parser α} (word word' : String)
    (h : (resembling d).Respects body) :
    (resembling d).Alike Eq (withQuoteHint word body) (withQuoteHint word' body) := by
  intro s s' hs
  have hbody : SameOutcome d Eq (body s) (body s') := h s s' hs
  show SameOutcome d Eq (withQuoteHint word body s) (withQuoteHint word' body s')
  unfold withQuoteHint
  generalize body s = result at hbody ⊢
  generalize body s' = result' at hbody ⊢
  cases hbody with
  | ok hR hu => exact .ok hR hu
  | @error e e' u u' hcontext hexpected =>
      obtain ⟨fault, context⟩ := e
      obtain ⟨fault', context'⟩ := e'
      cases fault <;> cases fault' <;> exact .error hcontext hexpected

theorem notValid_resembling : (resembling d).Respects notValid := by
  intro s s' hs
  have hnext : s'.ahead.tail.head?.any (·.kind == .keyword .valid) =
      s.ahead.tail.head?.any (·.kind == .keyword .valid) := any_head?_kind hs.next _
  rw [notValid_eq, notValid_eq, hs.current.kind_beq, hnext]
  split
  · exact .ok rfl hs.next.next
  · exact .ok rfl hs

-- Both loops take the same number of rounds.
theorem many_resembling {step step' : Parser (Option α)}
    (h : (resembling d).Alike (Option.Rel R) step step') :
    (resembling d).Alike (List.Forall₂ R) (many step) (many step') := by
  intro s s' hs
  induction hn : s.ahead.length using Nat.strong_induction_on generalizing s s' with
  | _ n ih =>
      subst hn
      have hstep : SameOutcome d (Option.Rel R) (step s) (step' s') := h s s' hs
      show SameOutcome d (List.Forall₂ R) (many step s) (many step' s')
      rw [many, many]
      generalize step s = result at hstep ⊢
      generalize step' s' = result' at hstep ⊢
      cases hstep with
      | error hcontext hexpected => exact .error hcontext hexpected
      | ok hR hu =>
          cases hR with
          | none => exact .ok .nil hu
          | some hR =>
              dsimp only
              rw [hu.length_eq, hs.length_eq]
              split
              · rename_i hlt
                have hrest : SameOutcome d (List.Forall₂ R) _ _ := ih _ hlt _ _ hu rfl
                generalize many step _ = result at hrest ⊢
                generalize many step' _ = result' at hrest ⊢
                cases hrest with
                | ok hRs hv => exact .ok (.cons hR hRs) hv
                | error hcontext hexpected => exact .error hcontext hexpected
              · exact .ok (.cons hR .nil) hu

instance : (resembling d).Lawful where
  current hs := hs.current
  next hs _ := hs.next
  reads ht := .inl ⟨ht.kind, ht.literal⟩
  done hR hu _ := .ok hR hu
  after h _ := h
  mono hRQ h := by
    cases h with
    | ok hR hu => exact .ok (hRQ _ _ hR) hu
    | error hcontext hexpected => exact .error hcontext hexpected
  bind h h' := bind_resembling h h'
  fail e c := fun _ _ _ => .error rfl rfl
  onModify _ c := fun _ _ _ => .error rfl rfl
  many h := many_resembling h
  exprBody place c := exprBody_resembling place c
  quoteHint _ _ h := withQuoteHint_resembling _ _ h
  optionName d' := fun s s' hs =>
    .ok (optionName_of_resembles d'.tableOptions [] hs).1 (optionName_of_resembles _ _ hs).2
  value ht := ht.optionValue?_rel
  notValid := notValid_resembling

end Parser

end SchemaDiff
