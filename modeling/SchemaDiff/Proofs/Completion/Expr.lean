import SchemaDiff.Proofs.Completion.Rules
import SchemaDiff.Proofs.Expr.Reading

namespace SchemaDiff.Parser

variable {d : Dialect}

-- How far an expression looks past its end.
def ExprPlace.lookahead : ExprPlace → Lookahead
  | .columnDefault => .notNull
  | _ => .token

-- What ends an expression at its place.
def ExprPlace.follow : ExprPlace → Follow
  | .parens => some [.symbol .rightParen]
  | _ => Follow.closing

variable {place : ExprPlace} {depth : Nat} {isFirst : Bool}

theorem any_null (ts : List Token) : ts.head?.any (·.kind == .keyword .null) =
    ((Face.first (ts.map Token.face)).kind == .keyword .null) := by
  cases ts <;> rfl

theorem stopAt?_face {t t' : Token} (ts ts' : List Token) (ht : t'.face = t.face)
    (hnext : place = .columnDefault → t.kind = .keyword .not →
      ((Face.first (ts.map Token.face)).kind = .keyword .null ↔
        (Face.first (ts'.map Token.face)).kind = .keyword .null)) :
    stopAt? place depth isFirst t' ts'.head? = stopAt? place depth isFirst t ts.head? := by
  have hkind : t'.kind = t.kind := congrArg Face.kind ht
  unfold stopAt?
  rw [hkind]
  split <;> try rfl
  rename_i k hk
  by_cases hplace : place = .columnDefault
  · by_cases hnot : k = .not
    · subst hnot
      have hsame : startsClause .not ts'.head? = startsClause .not ts.head? := by
        show ts'.head?.any _ = ts.head?.any _
        rw [any_null, any_null, Bool.eq_iff_iff, beq_iff_eq, beq_iff_eq]
        exact (hnext hplace hk).symm
      rw [hsame]
    · have hsame : startsClause k ts'.head? = startsClause k ts.head? := by
        cases k <;> first | rfl | exact absurd rfl hnot
      rw [hsame]
  · simp [hplace]

theorem stopAt?_not {t : Token} {next : Option Token} {stop : ExprStop}
    (h : stopAt? .columnDefault depth isFirst t next = some stop) (hk : t.kind = .keyword .not) :
    next.any (·.kind == .keyword .null) = true := by
  unfold stopAt? at h
  rw [hk] at h
  simp only [Option.ite_none_right_eq_some] at h
  exact h.1.2.2.2

-- An expression that ends where it begins does so in front of anything that looks the same.
theorem splitExpr_agree_nil {ts ts' : List Token} {stop : ExprStop}
    (h : splitExpr place depth isFirst ts = ⟨[], ts, stop⟩)
    (hts' : place.lookahead.Agree (ts.map Token.face) (ts'.map Token.face)) :
    splitExpr place depth isFirst ts' = ⟨[], ts', stop⟩ := by
  cases ts with
  | nil =>
      cases h
      cases ts' with
      | nil => rfl
      | cons t' ts' =>
          have hkind : t'.kind = .endOfInput := (congrArg Face.kind hts'.1).symm
          simp [splitExpr, stopAt?, hkind]
  | cons t ts =>
      rw [splitExpr] at h
      split at h
      · rename_i stop' hstop
        cases h
        cases ts' with
        | nil =>
            have hkind : t.kind = .endOfInput := congrArg Face.kind hts'.1
            simp only [stopAt?, hkind, Option.some.injEq] at hstop
            rw [splitExpr, hstop]
        | cons t' ts' =>
            have hsame : stopAt? place depth isFirst t' ts'.head? = some stop := by
              rw [stopAt?_face ts ts' hts'.1.symm, hstop]
              rintro rfl hnot
              have hnull := stopAt?_not hstop hnot
              rw [any_null, beq_iff_eq] at hnull
              exact iff_of_true hnull (hts'.2 hnot hnull)
            rw [splitExpr, hsame]
      · cases h

theorem depthAfter_face {t t' : Token} (h : t'.face = t.face) (depth : Nat) :
    depthAfter depth t' = depthAfter depth t := by
  have hkind : t'.kind = t.kind := congrArg Face.kind h
  unfold depthAfter
  rw [hkind]

-- The same tokens are collected in front of anything that looks like what followed them.
theorem splitExpr_agree {ts ts' body rest : List Token} {stop : ExprStop} {Y : List Face}
    (h : splitExpr place depth isFirst ts = ⟨body, rest, stop⟩)
    (hts' : ts'.map Token.face = body.map Token.face ++ Y)
    (hY : place.lookahead.Agree (rest.map Token.face) Y) :
    ∃ body' rest', splitExpr place depth isFirst ts' = ⟨body', rest', stop⟩ ∧
      body'.map Token.face = body.map Token.face ∧ rest'.map Token.face = Y := by
  induction ts generalizing depth isFirst body ts' with
  | nil =>
      have hempty := h
      cases hempty
      obtain rfl : ts'.map Token.face = Y := hts'
      exact ⟨[], ts', splitExpr_agree_nil h hY, rfl, rfl⟩
  | cons t ts ih =>
      cases hstop : stopAt? place depth isFirst t ts.head? with
      | some stop' =>
          have hempty := h
          rw [splitExpr, hstop] at hempty
          cases hempty
          obtain rfl : ts'.map Token.face = Y := hts'
          exact ⟨[], ts', splitExpr_agree_nil h hY, rfl, rfl⟩
      | none =>
          rw [splitExpr, hstop] at h
          cases hsplit : splitExpr place (depthAfter depth t) false ts with
          | mk body₁ rest₁ stop₁ =>
              rw [hsplit] at h
              cases h
              obtain ⟨t', ts'', rfl, ht', hts''⟩ := List.map_eq_cons_iff.mp hts'
              obtain ⟨body', rest', hagain, hbody', hrest'⟩ := ih hsplit hts''
              have hnext : Face.first (ts.map Token.face) = Face.first (ts''.map Token.face) := by
                have hsource := (splitExpr_source place (depthAfter depth t) false ts).1
                rw [hsplit] at hsource
                rw [hts'', hsource, List.map_append]
                by_cases hne : body₁.map Token.face = []
                · rw [hne]
                  exact hY.1
                · exact Face.first_append hne _ _
              have hnone : stopAt? place depth isFirst t' ts''.head? = none := by
                rw [stopAt?_face ts ts'' ht' fun _ _ => by rw [hnext], hstop]
              refine ⟨t' :: body', rest', ?_, by rw [List.map_cons, hbody', ht']; rfl, hrest'⟩
              rw [splitExpr, hnone, depthAfter_face ht', hagain]

-- Any kind but one may be put behind tokens of an expression.
theorem Inside.append {kinds kinds' : List TokenKind} (h : Inside place depth isFirst kinds)
    (hne : kinds ≠ []) (hnull : ∀ k ∈ kinds'.head?, k ≠ .keyword .null)
    (h' : Inside place (depthBehind kinds depth) false kinds') :
    Inside place depth isFirst (kinds ++ kinds') := by
  induction kinds generalizing depth isFirst with
  | nil => exact absurd rfl hne
  | cons k kinds ih =>
      obtain ⟨hk, hrest⟩ := h
      cases kinds with
      | nil =>
          refine ⟨(stopAt?_of_ne_null fun t ht => ?_).trans hk, h'⟩
          obtain ⟨k', hk', rfl⟩ := Option.map_eq_some_iff.mp ht
          exact hnull k' hk'
      | cons k' kinds => exact ⟨hk, ih hrest (by simp) h'⟩

theorem inside_replicate (place : ExprPlace) (n : Nat) :
    Inside place n false (List.replicate n (.symbol .rightParen)) := by
  induction n with
  | zero => trivial
  | succ n ih => exact ⟨by simp [stopAt?, kindToken], ih⟩

theorem depthBehind_replicate (n : Nat) :
    depthBehind (List.replicate n (.symbol .rightParen)) n = 0 := by
  induction n with
  | zero => rfl
  | succ n ih => exact ih

theorem ExprPlace.follow_ne_null {k : TokenKind} (h : place.follow.Allows k) :
    k ≠ .keyword .null := by
  rintro rfl
  revert h
  cases place <;> decide

theorem stops_of_follow {rest : List Token}
    (h : place.follow.Allows (Face.first (rest.map Token.face)).kind) :
    Stops place 0 false (rest.map Token.kind) .complete := by
  cases rest with
  | nil =>
      cases place with
      | parens => exact absurd h (by decide)
      | _ => rfl
  | cons t rest =>
      have h : place.follow.Allows t.kind := h
      show stopAt? place 0 false (kindToken t.kind) _ = some .complete
      cases place with
      | parens =>
          have hkind : t.kind = .symbol .rightParen := List.mem_singleton.mp (h _ rfl)
          rw [hkind]
          rfl
      | _ =>
          have hkind := h _ rfl
          simp only [List.mem_cons, List.not_mem_nil, or_false] at hkind
          rcases hkind with hkind | hkind | hkind | hkind <;> rw [hkind] <;> rfl

-- The open brackets are closed, and then the expression ends.
theorem splitExpr_completed {ts ts' : List Token} {Y : List Face}
    (hne : (splitExpr place 0 true ts).body ≠ [])
    (hY : place.follow.Allows (Face.first Y).kind)
    (hts' : ts'.map Token.face = (splitExpr place 0 true ts).body.map Token.face ++
      (List.replicate (depthBehind ((splitExpr place 0 true ts).body.map Token.kind) 0)
        (Face.symbol .rightParen) ++ Y)) :
    ∃ body' rest', splitExpr place 0 true ts' = ⟨body', rest', .complete⟩ ∧ body' ≠ [] ∧
      rest'.map Token.face = Y := by
  obtain ⟨-, hinside, -⟩ := splitExpr_source place 0 true ts
  generalize (splitExpr place 0 true ts).body = body at *
  rw [← List.append_assoc] at hts'
  obtain ⟨body', rest', rfl, hbody', rfl⟩ := List.map_eq_append_iff.mp hts'
  have hkinds : body'.map Token.kind = body.map Token.kind ++
      List.replicate (depthBehind (body.map Token.kind) 0) (.symbol .rightParen) := by
    have h := congrArg (List.map Face.kind) hbody'
    rw [List.map_map, List.map_append, List.map_map, List.map_replicate] at h
    exact h
  have hne' : body' ≠ [] := by
    rintro rfl
    simp [hne] at hkinds
  refine ⟨body', rest', splitExpr_eq ?_ (fun t ht => ?_) ?_, hne', rfl⟩
  · rw [hkinds]
    refine hinside.append (by simpa using hne) ?_ (inside_replicate place _)
    intro k hk
    have hmem := List.mem_of_mem_head? hk
    rw [List.eq_of_mem_replicate hmem]
    simp
  · cases rest' with
    | nil => cases ht
    | cons t' rest' =>
        cases ht
        exact ExprPlace.follow_ne_null hY
  · have hnil : (true && body'.isEmpty) = false := by simpa using hne'
    have hdepth : depthBehind (body'.map Token.kind) 0 = 0 := by
      rw [hkinds, depthBehind, List.foldl_append]
      exact depthBehind_replicate _
    rw [hnil, hdepth]
    exact stops_of_follow hY

theorem exprBody_ok {c : Context} {s u : Cursor} {body : List Token}
    (h : exprBody place c s = .ok body u) :
    splitExpr place 0 true s.ahead = ⟨body, u.ahead, .complete⟩ ∧ body ≠ [] := by
  unfold exprBody at h
  dsimp only at h
  split at h
  · rename_i hstop
    split at h
    · cases h
    · rename_i hne
      cases h
      refine ⟨?_, by simpa using hne⟩
      rw [← hstop]
  · cases h
  · cases h
  · cases h

theorem exprBody_error {c : Context} {s u : Cursor} {e : ParseError}
    (h : exprBody place c s = .error e u) : u.ahead = (splitExpr place 0 true s.ahead).rest := by
  unfold exprBody at h
  dsimp only at h
  split at h
  · split at h <;> cases h
    rfl
  · cases h
    rfl
  · cases h
    rfl
  · cases h
    rfl

section

variable {γ : Type} {g : List Token → γ} {c : Context}

-- What is made of the tokens of an expression does not depend on where they stand.
theorem steps_exprBody
    (hg : ∀ body body', body.map Token.face = body'.map Token.face → g body = g body')
    {body : List Token} {X Y : List Face} (hne : body ≠ [])
    (h : ∀ s : Cursor, s.faces = X → ∃ body' rest',
      splitExpr place 0 true s.ahead = ⟨body', rest', .complete⟩ ∧
        body'.map Token.face = body.map Token.face ∧ rest'.map Token.face = Y) :
    Steps (exprBody place c >>= fun body => pure (g body)) X (g body) Y := by
  intro s hs
  obtain ⟨body', rest', hsplit, hbody', hrest'⟩ := h s hs
  have hne' : body'.isEmpty = false := by
    cases body' with
    | nil => simp [hne] at hbody'
    | cons t body' => rfl
  refine ⟨{ s with ahead := rest' }, bind_eq_ok.mpr ⟨body', { s with ahead := rest' }, ?_, ?_⟩, hrest'⟩
  · simp only [exprBody, hsplit, hne', Bool.false_eq_true, if_false]
  · rw [hg body' body hbody']
    rfl

theorem exprBody_completed
    (hg : ∀ body body', body.map Token.face = body'.map Token.face → g body = g body')
    (ts : List Token) (hne : (splitExpr place 0 true ts).body ≠ []) {Y : List Face}
    (hY : place.follow.Allows (Face.first Y).kind) :
    ∃ a, Steps (exprBody place c >>= fun body => pure (g body))
      ((splitExpr place 0 true ts).body.map Token.face ++
        (List.replicate (depthBehind ((splitExpr place 0 true ts).body.map Token.kind) 0)
          (Face.symbol .rightParen) ++ Y)) a Y := by
  -- The tokens at any place.
  generalize hwhole : (splitExpr place 0 true ts).body.map Token.face ++
    List.replicate (depthBehind ((splitExpr place 0 true ts).body.map Token.kind) 0)
      (Face.symbol .rightParen) = whole
  have hplace : (whole.map Face.token).map Token.face = whole := by
    rw [List.map_map]
    exact List.map_id whole
  refine ⟨g (whole.map Face.token), steps_exprBody hg ?_ fun s hs => ?_⟩
  · simp [← hwhole, hne]
  · obtain ⟨body', rest', hsplit, -, hrest'⟩ := splitExpr_completed hne hY hs
    refine ⟨body', rest', hsplit, ?_, hrest'⟩
    have hsource := (splitExpr_source place 0 true s.ahead).1
    rw [hsplit] at hsource
    rw [Cursor.faces, hsource, List.map_append, hrest', ← List.append_assoc, hwhole] at hs
    rw [hplace]
    exact List.append_cancel_right hs

theorem Viable.exprBody
    (hg : ∀ body body', body.map Token.face = body'.map Token.face → g body = g body') :
    Viable d place.lookahead place.follow (Parser.exprBody place c >>= fun body => Pure.pure (g body))
      [Face.filler] where
  everywhere s _ := by
    obtain ⟨hsource, -, -⟩ := splitExpr_source place 0 true s.ahead
    have hcompletes : (splitExpr place 0 true s.ahead).body.map Token.face ≠ [] →
        Completes d place.follow (Parser.exprBody place c >>= fun body => Pure.pure (g body))
          ((splitExpr place 0 true s.ahead).body.map Token.face) := by
      refine fun hne => ⟨_, fun f hf => ?_, fun Y => exprBody_completed hg _ (by simpa using hne)⟩
      rw [List.eq_of_mem_replicate hf]
      exact Face.genuine_symbol (.inl rfl)
    have hfaces {u : Cursor} (hu : u.ahead = (splitExpr place 0 true s.ahead).rest) :
        s.faces = (splitExpr place 0 true s.ahead).body.map Token.face ++ u.faces := by
      rw [Cursor.faces, Cursor.faces, hu, ← List.map_append, ← hsource]
    constructor
    · intro a u h
      obtain ⟨body, t, hbody, hpure⟩ := bind_eq_ok.mp h
      cases hpure
      obtain ⟨hsplit, hne⟩ := exprBody_ok hbody
      rw [hsplit] at hcompletes hfaces
      refine ⟨body.map Token.face, hfaces rfl, hcompletes, fun Y hY => ?_⟩
      exact steps_exprBody hg hne fun s' hs' => splitExpr_agree hsplit hs' hY
    · intro e u h _
      obtain h | ⟨body, t, -, hpure⟩ := bind_eq_error.mp h
      · exact ⟨_, hfaces (exprBody_error h), hcompletes⟩
      · cases hpure
  inhabited := ⟨g []⟩
  genuine := by simpa using Face.genuine_filler d
  accepts Y hY := by
    have hbody : (splitExpr place 0 true [Face.filler.token]).body = [Face.filler.token] := by
      cases place <;> rfl
    have h := exprBody_completed (c := c) hg [Face.filler.token] (by simp [hbody]) hY
    rw [hbody] at h
    exact h

end

theorem exprOf_of_faces {body body' : List Token} (h : body.map Token.face = body'.map Token.face) :
    exprOf body = exprOf body' := by
  have hmap (ts : List Token) :
      ts.map exprToken = (ts.map Token.face).map (exprToken ∘ Face.token) := by
    rw [List.map_map]
    rfl
  rw [exprOf, exprOf, hmap, hmap, h]

theorem firstColumn?_of_faces {body body' : List Token}
    (h : body.map Token.face = body'.map Token.face) : firstColumn? body = firstColumn? body' := by
  induction body generalizing body' with
  | nil =>
      cases body' with
      | nil => rfl
      | cons t body' => cases h
  | cons t body ih =>
      obtain ⟨t', body', rfl, ht, hrest⟩ := List.map_eq_cons_iff.mp h.symm
      have hname : exprName? t' = exprName? t := by
        have hface : exprName? t'.face.token = exprName? t.face.token := by rw [ht]
        exact hface
      have hnext : body'.head?.any (·.kind == .symbol .leftParen) =
          body.head?.any (·.kind == .symbol .leftParen) := by
        have hmap (ts : List Token) : ts.head?.any (·.kind == .symbol .leftParen) =
            (ts.map Token.face).head?.any (·.kind == .symbol .leftParen) := by
          rw [List.head?_map, Option.any_map]
          rfl
        rw [hmap, hmap, hrest]
      rw [firstColumn?, firstColumn?, hname, hnext, ih hrest.symm]

-- What is made of the body of a check can be made of it inside the parentheses.
theorem checkBody_bind_pure {γ : Type} (g : List Token → γ) :
    (checkBody >>= fun body => pure (g body)) = inParens .checkConstraint .closeParen
      (exprBody .parens .checkConstraint >>= fun body => pure (g body)) := by
  simp only [checkBody, inParens, bind_assoc, pure_bind]

namespace Viable

theorem expr (place : ExprPlace) (c : Context) :
    Viable d place.lookahead place.follow (Parser.expr place c) [Face.filler] :=
  exprBody fun _ _ => exprOf_of_faces

theorem checkBody {γ : Type} {g : List Token → γ} {l : Lookahead} {φ : Follow}
    (hg : ∀ body body', body.map Token.face = body'.map Token.face → g body = g body') :
    Viable d l φ (Parser.checkBody >>= fun body => Pure.pure (g body))
      [Face.symbol .leftParen, Face.filler, Face.symbol .rightParen] := by
  rw [checkBody_bind_pure]
  exact inParens (exprBody hg) (by decide)

end Viable

end SchemaDiff.Parser
