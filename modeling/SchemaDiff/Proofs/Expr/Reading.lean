import SchemaDiff.Parser.Expr
import SchemaDiff.Proofs.Expr.Printing
import SchemaDiff.Proofs.Parser.Yields
import SchemaDiff.Proofs.Token.Fixed

namespace SchemaDiff

namespace Parser

-- Where an expression ends is decided by the kinds of its tokens.
def kindToken (k : TokenKind) : Token :=
  ⟨k, "", ⟨0, 0⟩⟩

theorem stopAt?_kind (place : ExprPlace) (depth : Nat) (isFirst : Bool) (t : Token)
    (next : Option Token) :
    stopAt? place depth isFirst t next =
      stopAt? place depth isFirst (kindToken t.kind) (next.map (kindToken ∘ Token.kind)) := by
  obtain ⟨kind, literal, span⟩ := t
  have hclause : ∀ k, startsClause k next =
      startsClause k (next.map (kindToken ∘ Token.kind)) := by
    intro k
    cases k <;> cases next <;> rfl
  cases kind with
  | keyword k =>
      unfold stopAt?
      dsimp only [kindToken]
      rw [hclause k]
  | symbol s => cases s <;> rfl
  | _ => rfl

-- None of the tokens ends the expression.
def Inside (place : ExprPlace) : Nat → Bool → List TokenKind → Prop
  | _, _, [] => True
  | depth, isFirst, k :: rest =>
      stopAt? place depth isFirst (kindToken k) (rest.head?.map kindToken) = none ∧
        Inside place (depthAfter depth (kindToken k)) false rest

def depthBehind (kinds : List TokenKind) (depth : Nat) : Nat :=
  kinds.foldl (fun depth k => depthAfter depth (kindToken k)) depth

-- The tokens end an expression in front of them.
def Stops (place : ExprPlace) (depth : Nat) (isFirst : Bool) : List TokenKind → ExprStop → Prop
  | [], stop => stop = if place = .parens then .unclosed else .complete
  | k :: rest, stop =>
      stopAt? place depth isFirst (kindToken k) (rest.head?.map kindToken) = some stop

-- What follows a token matters for one keyword only, and only if it is one other keyword.
theorem startsClause_of_ne_null {k : Keyword} {next : Option Token}
    (h : ∀ t ∈ next, t.kind ≠ .keyword .null) : startsClause k next = startsClause k none := by
  cases k <;> try rfl
  cases next with
  | none => rfl
  | some t => simpa [startsClause] using h t rfl

theorem stopAt?_of_ne_null {place : ExprPlace} {depth : Nat} {isFirst : Bool} {t : Token}
    {next : Option Token} (h : ∀ t ∈ next, t.kind ≠ .keyword .null) :
    stopAt? place depth isFirst t next = stopAt? place depth isFirst t none := by
  unfold stopAt?
  split <;> try rfl
  rw [startsClause_of_ne_null h]

theorem stopAt?_without_next {place : ExprPlace} {depth : Nat} {isFirst : Bool} {t : Token}
    {next : Option Token} (h : stopAt? place depth isFirst t next = none) :
    stopAt? place depth isFirst t none = none := by
  by_cases hnull : ∀ t ∈ next, t.kind ≠ .keyword .null
  · rwa [stopAt?_of_ne_null hnull] at h
  · unfold stopAt? at h ⊢
    split at h <;> try exact h
    rename_i k hk
    simp only [ite_eq_right_iff, reduceCtorEq, imp_false, not_and] at h ⊢
    intro hd hp hf hclause
    refine h hd hp hf ?_
    revert hclause
    cases k <;> simp [startsClause]

theorem Inside.append_one {place : ExprPlace} {depth : Nat} {isFirst : Bool} {t : Token}
    {body rest : List Token}
    (h : stopAt? place depth isFirst t (body ++ rest).head? = none)
    (hrest : Inside place (depthAfter depth t) false (body.map Token.kind)) :
    Inside place depth isFirst ((t :: body).map Token.kind) := by
  refine ⟨?_, hrest⟩
  cases body with
  | nil =>
      rw [List.map_nil, List.head?_nil, Option.map_none]
      rw [stopAt?_kind] at h
      exact stopAt?_without_next h
  | cons b body =>
      rw [stopAt?_kind] at h
      simpa using h

theorem splitExpr_source (place : ExprPlace) (depth : Nat) (isFirst : Bool) (ts : List Token) :
    ts = (splitExpr place depth isFirst ts).body ++ (splitExpr place depth isFirst ts).rest ∧
      Inside place depth isFirst ((splitExpr place depth isFirst ts).body.map Token.kind) ∧
      Stops place (depthBehind ((splitExpr place depth isFirst ts).body.map Token.kind) depth)
        (isFirst && (splitExpr place depth isFirst ts).body.isEmpty)
        ((splitExpr place depth isFirst ts).rest.map Token.kind)
        (splitExpr place depth isFirst ts).stop := by
  induction ts generalizing depth isFirst with
  | nil => exact ⟨rfl, trivial, rfl⟩
  | cons t ts ih =>
      obtain ⟨hsplit, hinside, hstops⟩ := ih (depthAfter depth t) false
      unfold splitExpr
      split
      · rename_i stop hstop
        refine ⟨rfl, trivial, ?_⟩
        rw [stopAt?_kind] at hstop
        simpa [Stops, depthBehind, List.head?_map] using hstop
      · rename_i hstop
        dsimp only
        refine ⟨by rw [List.cons_append, ← hsplit], ?_, ?_⟩
        · rw [hsplit] at hstop
          exact .append_one hstop hinside
        · rw [List.isEmpty_cons, Bool.and_false]
          exact hstops

theorem Inside.stopAt?_eq_none {place : ExprPlace} {depth : Nat} {isFirst : Bool} {k : TokenKind}
    {front back : List TokenKind} (h : Inside place depth isFirst (front ++ k :: back)) :
    stopAt? place (depthBehind front depth) (isFirst && front.isEmpty) (kindToken k)
      (back.head?.map kindToken) = none := by
  induction front generalizing depth isFirst with
  | nil => simpa [depthBehind] using h.1
  | cons k' front ih => simpa [depthBehind] using ih h.2

-- Tokens that do not stop the collection are collected, as long as something behind them does.
theorem splitExpr_of_none {place : ExprPlace} {depth : Nat} {isFirst : Bool} {body rest : List Token}
    {stop : ExprStop}
    (hnone : ∀ front t back, body = front ++ t :: back →
      stopAt? place (depthBehind (front.map Token.kind) depth) (isFirst && front.isEmpty) t
        (back ++ rest).head? = none)
    (hstops : Stops place (depthBehind (body.map Token.kind) depth) (isFirst && body.isEmpty)
      (rest.map Token.kind) stop) :
    splitExpr place depth isFirst (body ++ rest) = ⟨body, rest, stop⟩ := by
  induction body generalizing depth isFirst with
  | nil =>
      cases rest with
      | nil =>
          obtain rfl := hstops
          rfl
      | cons t rest =>
          have hstop : stopAt? place depth isFirst t rest.head? = some stop := by
            rw [stopAt?_kind]
            simpa [Stops, depthBehind, List.head?_map] using hstops
          rw [List.nil_append, splitExpr, hstop]
  | cons t body ih =>
      have hfirst := hnone [] t body rfl
      simp only [List.map_nil, depthBehind, List.foldl_nil, List.isEmpty_nil, Bool.and_true] at hfirst
      have hrest : splitExpr place (depthAfter depth (kindToken t.kind)) false (body ++ rest) =
          ⟨body, rest, stop⟩ := by
        refine ih (fun front t' back hbody => ?_) (by simpa [depthBehind] using hstops)
        simpa [depthBehind] using hnone (t :: front) t' back (by rw [hbody]; rfl)
      have hdepth : depthAfter depth t = depthAfter depth (kindToken t.kind) := rfl
      rw [List.cons_append, splitExpr, hfirst]
      simp only [hdepth, hrest]

-- The tokens of an expression are collected again.
theorem splitExpr_eq {place : ExprPlace} {depth : Nat} {isFirst : Bool} {body rest : List Token}
    {stop : ExprStop} (hinside : Inside place depth isFirst (body.map Token.kind))
    (hnull : ∀ t ∈ rest.head?, t.kind ≠ .keyword .null)
    (hstops : Stops place (depthBehind (body.map Token.kind) depth) (isFirst && body.isEmpty)
      (rest.map Token.kind) stop) :
    splitExpr place depth isFirst (body ++ rest) = ⟨body, rest, stop⟩ := by
  refine splitExpr_of_none (fun front t back hbody => ?_) hstops
  rw [hbody, List.map_append, List.map_cons] at hinside
  have hnone := hinside.stopAt?_eq_none
  rw [List.isEmpty_map] at hnone
  cases back with
  | nil =>
      rw [List.nil_append, stopAt?_of_ne_null hnull, stopAt?_kind]
      simpa using hnone
  | cons b back =>
      rw [stopAt?_kind]
      simpa using hnone

end Parser

end SchemaDiff
