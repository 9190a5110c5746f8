import SchemaDiff.Proofs.Expr

namespace SchemaDiff

open SchemaDiff.Parser

variable {d : Dialect}

inductive Bracket
  | round | square
deriving DecidableEq, Repr

namespace Bracket

def opening : Bracket → Symbol
  | round => .leftParen
  | square => .leftBracket

def closing : Bracket → Symbol
  | round => .rightParen
  | square => .rightBracket

def shape? (side : Bracket → Symbol) (token : String) : Option Bracket :=
  if token = (side round).text then some round
  else if token = (side square).text then some square
  else none

def opened? : String → Option Bracket := shape? opening

def closed? : String → Option Bracket := shape? closing

-- The brackets that are open behind the token, the latest one first. A closing bracket needs the latest
-- one to be of its own shape.
def nest? (opened : List Bracket) (token : String) : Option (List Bracket) :=
  match opened? token, closed? token, opened with
  | some b, _, _ => some (b :: opened)
  | none, none, _ => some opened
  | none, some b, latest :: outer => if latest = b then some outer else none
  | none, some _, [] => none

def openBehind? (tokens : List String) : Option (List Bracket) :=
  tokens.foldlM nest? []

def WellNested (tokens : List String) : Prop :=
  openBehind? tokens = some []

def opens (token : String) : Bool :=
  (opened? token).isSome

def closes (token : String) : Bool :=
  (closed? token).isSome

-- At no place are more brackets open, whatever their shapes are.
def NestsWithin (depth : Nat) (tokens : List String) : Prop :=
  ∀ front, front <+: tokens → front.countP opens ≤ front.countP closes + depth

-- A bracket is closed by one of the other shape, or a square one is closed that was never opened.
def Mispaired (tokens : List String) : Prop :=
  ∃ front token back opened, tokens = front ++ token :: back ∧ openBehind? front = some opened ∧
    (token = ")" ∧ opened.head? = some square ∨ token = "]" ∧ opened.head? ≠ some square)

def LeavesOpen (tokens : List String) : Prop :=
  ∃ latest outer, openBehind? tokens = some (latest :: outer)

instance (tokens : List String) : Decidable (WellNested tokens) :=
  inferInstanceAs (Decidable (_ = _))

theorem foldlM_append (opened : List Bracket) (front back : List String) :
    (front ++ back).foldlM nest? opened =
      (front.foldlM nest? opened).bind fun between => back.foldlM nest? between :=
  List.foldlM_append

theorem closed?_of_opened? {token : String} {b : Bracket} (h : opened? token = some b) :
    closed? token = none := by
  unfold opened? shape? at h
  split_ifs at h with hround hsquare
  · rw [hround]
    rfl
  · rw [hsquare]
    rfl

theorem nest?_of_closed {opened : List Bracket} {token : String} {b : Bracket}
    (h : closed? token = some b) (hhead : opened.head? ≠ some b) : nest? opened token = none := by
  have hopened : opened? token = none := by
    cases hopened : opened? token with
    | none => rfl
    | some b' =>
        rw [closed?_of_opened? hopened] at h
        cases h
  cases opened with
  | nil => simp [nest?, hopened, h]
  | cons latest outer =>
      have hne : latest ≠ b := by simpa using hhead
      simp [nest?, hopened, h, hne]

theorem nest?_of_mispaired {opened : List Bracket} {token : String}
    (h : token = ")" ∧ opened.head? = some square ∨ token = "]" ∧ opened.head? ≠ some square) :
    nest? opened token = none := by
  obtain ⟨rfl, hhead⟩ | ⟨rfl, hhead⟩ := h
  · have hclosed : closed? ")" = some round := rfl
    exact nest?_of_closed hclosed (by simp [hhead])
  · have hclosed : closed? "]" = some square := rfl
    exact nest?_of_closed hclosed hhead

theorem Mispaired.openBehind? {tokens : List String} (h : Mispaired tokens) :
    openBehind? tokens = none := by
  obtain ⟨front, token, back, opened, rfl, hfront, hpair⟩ := h
  rw [Bracket.openBehind?, foldlM_append]
  rw [Bracket.openBehind?] at hfront
  rw [hfront, Option.bind_some, List.foldlM_cons, nest?_of_mispaired hpair]
  rfl

theorem step_of_nest? {opened between : List Bracket} {token : String}
    (h : nest? opened token = some between) :
    (if opens token then 1 else 0) + opened.length =
      (if closes token then 1 else 0) + between.length := by
  unfold opens closes
  unfold nest? at h
  split at h
  · rename_i hopened
    cases h
    rw [hopened, closed?_of_opened? hopened]
    simp [Nat.add_comm]
  · rename_i hopened hclosed
    cases h
    rw [hopened, hclosed]
  · rename_i hopened hclosed
    split at h
    · cases h
      rw [hopened, hclosed]
      simp [Nat.add_comm]
    · cases h
  · cases h

-- As long as the brackets match, the open ones are those that were opened and not closed.
theorem countP_of_foldlM {tokens : List String} {opened opened' : List Bracket}
    (h : tokens.foldlM nest? opened = some opened') :
    tokens.countP opens + opened.length = tokens.countP closes + opened'.length := by
  induction tokens generalizing opened with
  | nil =>
      cases h
      rfl
  | cons token tokens ih =>
      rw [List.foldlM_cons] at h
      obtain ⟨between, hstep, hrest⟩ := Option.bind_eq_some_iff.mp h
      have htoken := step_of_nest? hstep
      have htokens := ih hrest
      rw [List.countP_cons, List.countP_cons]
      omega

-- Where the brackets do not match, there is a first one that does not.
theorem exists_of_foldlM_none {opened : List Bracket} {faces : List Face}
    (h : (faces.map Face.literal).foldlM nest? opened = none) :
    ∃ front f back opened', faces = front ++ f :: back ∧
      (front.map Face.literal).foldlM nest? opened = some opened' ∧
        nest? opened' f.literal = none := by
  induction faces generalizing opened with
  | nil => cases h
  | cons f faces ih =>
      cases hstep : nest? opened f.literal with
      | none => exact ⟨[], f, faces, opened, rfl, rfl, hstep⟩
      | some between =>
          rw [List.map_cons, List.foldlM_cons, hstep] at h
          obtain ⟨front, g, back, opened', rfl, hfront, hnone⟩ := ih h
          refine ⟨f :: front, g, back, opened', rfl, ?_, hnone⟩
          rw [List.map_cons, List.foldlM_cons, hstep]
          exact hfront

theorem exists_of_nest?_none {opened : List Bracket} {token : String}
    (h : nest? opened token = none) : ∃ b, closed? token = some b ∧ opened.head? ≠ some b := by
  unfold nest? at h
  split at h
  · cases h
  · cases h
  · rename_i b latest outer _ hclosed
    split at h
    · cases h
    · rename_i hne
      exact ⟨b, hclosed, by simpa using hne⟩
  · rename_i b _ hclosed
    exact ⟨b, hclosed, by simp⟩

section Kinds

variable {f : Face}

theorem literal_of_bracket {side : Bracket → Symbol} (hside : side = opening ∨ side = closing)
    {b : Bracket} (h : f.Genuine d) (hk : f.kind = .symbol (side b)) : f.literal = (side b).text := by
  obtain ⟨hkind, c, tail, htext, -, hspells⟩ := h
  have hlexeme := hspells [] (Face.ends_nil hkind)
  rw [List.append_nil] at hlexeme
  have hne : side b ≠ .notEqual := by
    rcases hside with rfl | rfl <;> cases b <;> decide
  have hhead := Token.head_of_symbol ((congrArg Token.Lexeme.kind hlexeme).trans hk) hne
  have hone : (side b).text.toList = [c] ∧ (Token.lexeme d c tail).tail = 0 := by
    rcases hside with rfl | rfl <;> cases b <;> cases hhead <;> exact ⟨rfl, rfl⟩
  rw [hlexeme, List.length_eq_zero_iff] at hone
  rw [← String.toList_inj, htext, hone.1, hone.2]

-- The brackets are told by their texts.
theorem shape?_eq_some_iff {side : Bracket → Symbol} (hside : side = opening ∨ side = closing)
    {b : Bracket} (h : f.Genuine d) : shape? side f.literal = some b ↔ f.kind = .symbol (side b) := by
  constructor
  · intro hshape
    have hliteral : f.literal = (side b).text := by
      unfold shape? at hshape
      split_ifs at hshape with hround hsquare
      · cases hshape
        exact hround
      · cases hshape
        exact hsquare
    rw [← h.read_eq, hliteral]
    rcases hside with rfl | rfl <;> cases b <;> rfl
  · intro hk
    rw [literal_of_bracket hside h hk]
    rcases hside with rfl | rfl <;> cases b <;> rfl

theorem opened?_eq_some_iff {b : Bracket} (h : f.Genuine d) :
    opened? f.literal = some b ↔ f.kind = .symbol b.opening :=
  shape?_eq_some_iff (.inl rfl) h

theorem closed?_eq_some_iff {b : Bracket} (h : f.Genuine d) :
    closed? f.literal = some b ↔ f.kind = .symbol b.closing :=
  shape?_eq_some_iff (.inr rfl) h

theorem depthAfter_opening (depth : Nat) (b : Bracket) :
    depthAfter depth (kindToken (.symbol b.opening)) = depth + 1 := by
  cases b <;> rfl

theorem depthAfter_closing (depth : Nat) (b : Bracket) :
    depthAfter depth (kindToken (.symbol b.closing)) = depth - 1 := by
  cases b <;> rfl

theorem depthAfter_other (depth : Nat) (h : f.Genuine d) (hopened : opened? f.literal = none)
    (hclosed : closed? f.literal = none) : depthAfter depth (kindToken f.kind) = depth := by
  have hopening : ∀ b : Bracket, f.kind ≠ .symbol b.opening := by
    intro b hk
    rw [(opened?_eq_some_iff h).mpr hk] at hopened
    cases hopened
  have hclosing : ∀ b : Bracket, f.kind ≠ .symbol b.closing := by
    intro b hk
    rw [(closed?_eq_some_iff h).mpr hk] at hclosed
    cases hclosed
  unfold depthAfter kindToken
  dsimp only
  split
  · exact absurd ‹_› (hopening round)
  · exact absurd ‹_› (hopening square)
  · exact absurd ‹_› (hclosing round)
  · exact absurd ‹_› (hclosing square)
  · rfl

-- As long as the brackets match, the parser counts the open ones.
theorem length_of_nest? {opened opened' : List Bracket} (h : f.Genuine d)
    (hnest : nest? opened f.literal = some opened') :
    opened'.length = depthAfter opened.length (kindToken f.kind) := by
  unfold nest? at hnest
  split at hnest
  · rename_i b _ _ hopened
    cases hnest
    rw [(opened?_eq_some_iff h).mp hopened, depthAfter_opening]
    rfl
  · rename_i hopened hclosed
    cases hnest
    rw [depthAfter_other _ h hopened hclosed]
  · rename_i b latest outer _ hclosed
    split at hnest
    · cases hnest
      rw [(closed?_eq_some_iff h).mp hclosed, depthAfter_closing]
      rfl
    · cases hnest
  · cases hnest

end Kinds

end Bracket

namespace Parser

theorem depthAfter_le {place : ExprPlace} {depth : Nat} {isFirst : Bool} {t : Token}
    {next : Option Token} (h : stopAt? place depth isFirst t next = none) (hle : depth ≤ maxNesting) :
    depthAfter depth t ≤ maxNesting := by
  unfold depthAfter
  split
  case h_1 | h_2 =>
    rename_i hk
    simp only [stopAt?, hk, ite_eq_right_iff, reduceCtorEq, imp_false] at h
    omega
  all_goals omega

theorem Inside.depthBehind_le {place : ExprPlace} {depth : Nat} {isFirst : Bool}
    {front back : List TokenKind} (h : Inside place depth isFirst (front ++ back))
    (hle : depth ≤ maxNesting) : depthBehind front depth ≤ maxNesting := by
  induction front generalizing depth isFirst with
  | nil => exact hle
  | cons k front ih => exact ih h.2 (depthAfter_le h.1 hle)

end Parser

namespace Bracket

section Runs

variable {place : ExprPlace} {isFirst : Bool} {opened opened' : List Bracket} {faces : List Face}

theorem length_of_foldlM (hgenuine : ∀ f ∈ faces, f.Genuine d)
    (h : (faces.map Face.literal).foldlM nest? opened = some opened') :
    opened'.length = depthBehind (faces.map Face.kind) opened.length := by
  induction faces generalizing opened with
  | nil =>
      cases h
      rfl
  | cons f faces ih =>
      rw [List.forall_mem_cons] at hgenuine
      rw [List.map_cons, List.foldlM_cons] at h
      obtain ⟨between, hstep, hrest⟩ := Option.bind_eq_some_iff.mp h
      rw [ih hgenuine.2 hrest, length_of_nest? hgenuine.1 hstep]
      rfl

theorem length_of_openBehind? (hgenuine : ∀ f ∈ faces, f.Genuine d)
    (h : openBehind? (faces.map Face.literal) = some opened) :
    opened.length = depthBehind (faces.map Face.kind) 0 :=
  length_of_foldlM hgenuine h

theorem length_of_tokens {tokens : List Token} (hgenuine : ∀ t ∈ tokens, t.face.Genuine d)
    (h : openBehind? (tokens.map Token.literal) = some opened) :
    opened.length = depthBehind (tokens.map Token.kind) 0 := by
  have hliterals : (tokens.map Token.face).map Face.literal = tokens.map Token.literal :=
    List.map_map
  have hkinds : (tokens.map Token.face).map Face.kind = tokens.map Token.kind := List.map_map
  rw [← hliterals] at h
  rw [← hkinds]
  exact length_of_openBehind? (List.forall_mem_map.mpr hgenuine) h

theorem step_le_depthAfter {f : Face} (h : f.Genuine d) (depth : Nat) :
    (if opens f.literal then 1 else 0) + depth ≤
      (if closes f.literal then 1 else 0) + depthAfter depth (kindToken f.kind) := by
  unfold opens closes
  cases hopened : opened? f.literal with
  | some b =>
      rw [closed?_of_opened? hopened, (opened?_eq_some_iff h).mp hopened, depthAfter_opening]
      simp
      omega
  | none =>
      cases hclosed : closed? f.literal with
      | some b =>
          rw [(closed?_eq_some_iff h).mp hclosed, depthAfter_closing]
          simp
          omega
      | none =>
          rw [depthAfter_other depth h hopened hclosed]

-- The counter of the parser is never behind the brackets that were opened and not closed.
theorem countP_le_depthBehind (hgenuine : ∀ f ∈ faces, f.Genuine d) (depth : Nat) :
    (faces.map Face.literal).countP opens + depth ≤
      (faces.map Face.literal).countP closes + depthBehind (faces.map Face.kind) depth := by
  induction faces generalizing depth with
  | nil => simp [depthBehind]
  | cons f faces ih =>
      rw [List.forall_mem_cons] at hgenuine
      have hrest := ih hgenuine.2 (depthAfter depth (kindToken f.kind))
      have hstep := step_le_depthAfter hgenuine.1 depth
      have hbehind : depthBehind ((f :: faces).map Face.kind) depth =
          depthBehind (faces.map Face.kind) (depthAfter depth (kindToken f.kind)) := rfl
      rw [hbehind, List.map_cons, List.countP_cons, List.countP_cons]
      omega

variable (hgenuine : ∀ f ∈ faces, f.Genuine d) (hinside : Inside place 0 true (faces.map Face.kind))

include hgenuine hinside

theorem nestsWithin_of_inside : NestsWithin maxNesting (faces.map Face.literal) := by
  intro front hfront
  obtain ⟨back, hback⟩ := hfront
  obtain ⟨read, rest, rfl, rfl, rfl⟩ := List.map_eq_append_iff.mp hback.symm
  have hread : ∀ f ∈ read, f.Genuine d := fun f hf => hgenuine f (by simp [hf])
  have hcount := countP_le_depthBehind hread 0
  rw [List.map_append] at hinside
  have hle := hinside.depthBehind_le (Nat.zero_le _)
  omega

-- A closing parenthesis that was never opened would end the expression.
theorem mispaired_of_inside (h : openBehind? (faces.map Face.literal) = none) :
    Mispaired (faces.map Face.literal) := by
  obtain ⟨front, f, back, opened, rfl, hfront, hnone⟩ := exists_of_foldlM_none h
  obtain ⟨b, hclosed, hhead⟩ := exists_of_nest?_none hnone
  have hlength := length_of_openBehind? (fun f hf => hgenuine f (by simp [hf])) hfront
  rw [List.map_append, List.map_cons] at hinside
  have hstop := hinside.stopAt?_eq_none
  rw [← hlength, (closed?_eq_some_iff (hgenuine f (by simp))).mp hclosed] at hstop
  refine ⟨front.map Face.literal, f.literal, back.map Face.literal, opened, by simp, hfront, ?_⟩
  have hliteral := literal_of_bracket (.inr rfl) (hgenuine f (by simp))
    ((closed?_eq_some_iff (hgenuine f (by simp))).mp hclosed)
  cases b with
  | round =>
      refine .inl ⟨hliteral, ?_⟩
      cases opened with
      | nil => cases hstop
      | cons latest outer =>
          cases latest with
          | round => simp at hhead
          | square => rfl
  | square => exact .inr ⟨hliteral, hhead⟩

theorem openBehind?_eq_none_iff :
    openBehind? (faces.map Face.literal) = none ↔ Mispaired (faces.map Face.literal) :=
  ⟨mispaired_of_inside hgenuine hinside, Mispaired.openBehind?⟩

theorem wellNested_iff : WellNested (faces.map Face.literal) ↔
    ¬Mispaired (faces.map Face.literal) ∧ ¬LeavesOpen (faces.map Face.literal) := by
  rw [← openBehind?_eq_none_iff hgenuine hinside, WellNested, LeavesOpen]
  cases openBehind? (faces.map Face.literal) with
  | none => simp
  | some opened => cases opened <;> simp

end Runs

theorem not_leavesOpen {faces : List Face} (hgenuine : ∀ f ∈ faces, f.Genuine d)
    (hclosed : depthBehind (faces.map Face.kind) 0 = 0) : ¬LeavesOpen (faces.map Face.literal) := by
  rintro ⟨latest, outer, h⟩
  have hlength := length_of_openBehind? hgenuine h
  rw [hclosed] at hlength
  cases hlength

theorem WellNested.of_append {front back : List String} (h : WellNested (front ++ back)) :
    ∃ opened, openBehind? front = some opened ∧ back.foldlM nest? opened = some [] := by
  rw [WellNested, openBehind?, foldlM_append] at h
  exact Option.bind_eq_some_iff.mp h

end Bracket

namespace Parser

variable {place : ExprPlace} {c : Context} {s u : Cursor}

theorem opening_of_tooDeep {depth : Nat} {isFirst : Bool} {t : Token} {next : Option Token}
    (h : stopAt? place depth isFirst t next = some .tooDeep) :
    (∃ b : Bracket, t.kind = .symbol b.opening) ∧ maxNesting ≤ depth := by
  unfold stopAt? at h
  split at h
  case h_6 =>
    rename_i hk
    split at h
    · rename_i hle
      exact ⟨⟨.round, hk⟩, hle⟩
    · cases h
  case h_7 =>
    rename_i hk
    split at h
    · rename_i hle
      exact ⟨⟨.square, hk⟩, hle⟩
    · cases h
  -- No other token complains about the depth.
  all_goals (try split at h) <;> simp at h

theorem exprBody_tooDeep {e : ParseError} {bracket : Span} (h : exprBody place c s = .error e u)
    (hf : e.fault = .nestingTooDeep bracket) :
    ∃ body t rest, s.ahead = body ++ t :: rest ∧ u.ahead = t :: rest ∧
      Inside place 0 true (body.map Token.kind) ∧ (∃ b : Bracket, t.kind = .symbol b.opening) ∧
        maxNesting ≤ depthBehind (body.map Token.kind) 0 := by
  obtain ⟨hsplit, hinside, hstops⟩ := splitExpr_source place 0 true s.ahead
  unfold exprBody at h
  dsimp only at h
  split at h
  · split at h
    · cases h
      cases hf
    · cases h
  · cases h
    cases hf
  · cases h
    cases hf
  · rename_i hstop
    cases h
    rw [hstop] at hstops
    cases hrest : (splitExpr place 0 true s.ahead).rest with
    | nil =>
        rw [hrest] at hstops
        have hends : ExprStop.tooDeep = if place = .parens then .unclosed else .complete := hstops
        split at hends <;> cases hends
    | cons t rest =>
        rw [hrest] at hsplit hstops
        obtain ⟨hopening, hle⟩ := opening_of_tooDeep hstops
        exact ⟨_, t, rest, hsplit, rfl, hinside, hopening, hle⟩

-- Of the tokens of the body that are no brackets, none ends the expression or breaks it off.
def Unbroken (place : ExprPlace) (body rest : List Token) : Prop :=
  ∀ front t back, body = front ++ t :: back →
    (∀ b : Bracket, t.kind ≠ .symbol b.opening ∧ t.kind ≠ .symbol b.closing) →
      stopAt? place (depthBehind (front.map Token.kind) 0) front.isEmpty t (back ++ rest).head? = none

section Bodies

variable {body rest : List Token} (hs : s.Scanned d) (hbody : s.ahead = body ++ rest)
  (hnested : Bracket.WellNested (body.map Token.literal))
  (hwithin : Bracket.NestsWithin maxNesting (body.map Token.literal))

include hnested in
theorem exists_openBehind? {front back : List Token} (hsplit : body = front ++ back) :
    ∃ opened, Bracket.openBehind? (front.map Token.literal) = some opened ∧
      (back.map Token.literal).foldlM Bracket.nest? opened = some [] := by
  rw [hsplit, List.map_append] at hnested
  exact hnested.of_append

include hnested hwithin in
-- In front of an opening bracket of the body one more bracket may be opened.
theorem depthBehind_lt {front back : List Token} {t : Token} {b : Bracket}
    (hgenuine : ∀ x ∈ front, x.face.Genuine d) (ht : t.face.Genuine d)
    (hsplit : body = front ++ t :: back) (hk : t.kind = .symbol b.opening) :
    depthBehind (front.map Token.kind) 0 < maxNesting := by
  obtain ⟨opened, hfront, -⟩ := exists_openBehind? hnested hsplit
  have hlength := Bracket.length_of_tokens hgenuine hfront
  have hopened : Bracket.opened? t.literal = some b := (Bracket.opened?_eq_some_iff ht).mpr hk
  have hcount := Bracket.countP_of_foldlM hfront
  have hle := hwithin (front.map Token.literal ++ [t.literal])
    ⟨back.map Token.literal, by simp [hsplit]⟩
  have hopens : Bracket.opens t.literal = true := by
    rw [Bracket.opens, hopened, Option.isSome_some]
  have hcloses : Bracket.closes t.literal = false := by
    rw [Bracket.closes, Bracket.closed?_of_opened? hopened, Option.isSome_none]
  simp only [List.countP_append, List.countP_singleton, hopens, hcloses, if_true,
    Bool.false_eq_true, if_false, List.length_nil] at hle hcount
  omega

include hnested in
-- In front of a closing bracket of the body a bracket is open.
theorem depthBehind_pos {front back : List Token} {t : Token} {b : Bracket}
    (hgenuine : ∀ x ∈ front, x.face.Genuine d) (ht : t.face.Genuine d)
    (hsplit : body = front ++ t :: back) (hk : t.kind = .symbol b.closing) :
    0 < depthBehind (front.map Token.kind) 0 := by
  obtain ⟨opened, hfront, hback⟩ := exists_openBehind? hnested hsplit
  have hlength := Bracket.length_of_tokens hgenuine hfront
  have hclosed := (Bracket.closed?_eq_some_iff ht).mpr hk
  rw [List.map_cons, List.foldlM_cons] at hback
  cases opened with
  | nil =>
      have hnone : Bracket.nest? [] t.face.literal = none := Bracket.nest?_of_closed hclosed (by simp)
      rw [Token.face] at hnone
      rw [hnone] at hback
      cases hback
  | cons latest outer =>
      rw [← hlength]
      exact Nat.succ_pos _

theorem stopAt?_opening {depth : Nat} {isFirst : Bool} {t : Token} {next : Option Token} {b : Bracket}
    (hk : t.kind = .symbol b.opening) (hlt : depth < maxNesting) :
    stopAt? place depth isFirst t next = none := by
  cases b <;> simp [stopAt?, hk, Bracket.opening, hlt]

theorem stopAt?_closing {depth : Nat} {isFirst : Bool} {t : Token} {next : Option Token} {b : Bracket}
    (hk : t.kind = .symbol b.closing) (hpos : 0 < depth) :
    stopAt? place depth isFirst t next = none := by
  have hne : depth ≠ 0 := by omega
  cases b <;> simp [stopAt?, hk, Bracket.closing, hne]

include hnested hwithin in
theorem stopAt?_of_wellNested (hgenuine : ∀ t ∈ body, t.face.Genuine d)
    (hothers : Unbroken place body rest) {front back : List Token} {t : Token}
    (hsplit : body = front ++ t :: back) :
    stopAt? place (depthBehind (front.map Token.kind) 0) front.isEmpty t (back ++ rest).head? =
      none := by
  have hfront : ∀ x ∈ front, x.face.Genuine d := fun x hx => hgenuine x (by simp [hsplit, hx])
  have ht := hgenuine t (by simp [hsplit])
  by_cases hopening : ∃ b : Bracket, t.kind = .symbol b.opening
  · obtain ⟨b, hk⟩ := hopening
    exact stopAt?_opening hk (depthBehind_lt hnested hwithin hfront ht hsplit hk)
  by_cases hclosing : ∃ b : Bracket, t.kind = .symbol b.closing
  · obtain ⟨b, hk⟩ := hclosing
    exact stopAt?_closing hk (depthBehind_pos hnested hfront ht hsplit hk)
  apply hothers front t back hsplit
  intro b
  exact ⟨fun hk => hopening ⟨b, hk⟩, fun hk => hclosing ⟨b, hk⟩⟩

include hs hbody hnested hwithin

-- The bracket that is one too many stands behind every body that is nested within the bound.
theorem suffix_of_tooDeep {e : ParseError} {bracket : Span} (h : exprBody place c s = .error e u)
    (hf : e.fault = .nestingTooDeep bracket) : u.ahead <:+ rest := by
  obtain ⟨front, t, behind, hahead, hu, hinside, ⟨b, hk⟩, hle⟩ := exprBody_tooDeep h hf
  have hgenuine : ∀ x ∈ front, x.face.Genuine d := by
    intro x hx
    obtain ⟨hend, hlegal⟩ := hinside.ne x.kind (List.mem_map_of_mem hx)
    exact hs x (by simp [hahead, hx]) hend hlegal
  have ht : t.face.Genuine d := hs t (by simp [hahead]) (by simp [hk]) (by simp [hk])
  rw [hbody, List.append_eq_append_iff] at hahead
  rw [hu]
  rcases hahead with ⟨between, -, hrest⟩ | ⟨between, hsplit, hrest⟩
  · exact ⟨between, hrest.symm⟩
  · cases between with
    | nil => exact ⟨[], by simpa using hrest⟩
    | cons x between =>
        obtain ⟨rfl, -⟩ := List.cons.inj hrest
        have hlt := depthBehind_lt hnested hwithin hgenuine ht hsplit hk
        omega

-- No bracket of the body ends it. If no other token does, the whole body is collected.
theorem exprBody_of_wellNested (hne : body ≠ []) (hothers : Unbroken place body rest)
    (hends : Stops place 0 false (rest.map Token.kind) .complete) :
    exprBody place c s = .ok body { s with ahead := rest } := by
  have hgenuine : ∀ t ∈ body, t.face.Genuine d := by
    intro t ht
    obtain ⟨front, back, hsplit⟩ := List.append_of_mem ht
    have hother := hothers front t back hsplit
    refine hs t (by simp [hbody, ht]) (fun hk => ?_) fun hk => ?_
    · simp [stopAt?, hk] at hother
    · simp [stopAt?, hk] at hother
  have hempty : body.isEmpty = false := by simpa using hne
  have hstops : Stops place (depthBehind (body.map Token.kind) 0) (true && body.isEmpty)
      (rest.map Token.kind) .complete := by
    rw [← Bracket.length_of_tokens hgenuine hnested, hempty]
    exact hends
  have hcollects := splitExpr_of_none
    (fun _ _ _ hsplit => stopAt?_of_wellNested hnested hwithin hgenuine hothers hsplit) hstops
  rw [← hbody] at hcollects
  simp only [exprBody, hcollects, hempty, Bool.false_eq_true, if_false]

end Bodies

end Parser

end SchemaDiff
