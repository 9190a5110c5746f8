import SchemaDiff.Proofs.Parser.Steps
import SchemaDiff.Proofs.Token.Fixed

namespace SchemaDiff

namespace Face

-- A name that stands for any other.
def filler : Face :=
  word "x"

theorem genuine_filler (d : Dialect) : filler.Genuine d :=
  genuine_word (isWord_of_looks (by decide)) (by cases d <;> decide)

end Face

theorem Face.first_append {X : List Face} (h : X ≠ []) (Y Z : List Face) :
    first (X ++ Y) = first (X ++ Z) := by
  cases X with
  | nil => exact absurd rfl h
  | cons f X => rfl

namespace Parser

-- The kinds of tokens that may stand behind what a parser reads, or nothing if all of them may.
abbrev Follow := Option (List TokenKind)

namespace Follow

def Allows (follow : Follow) (k : TokenKind) : Prop :=
  ∀ kinds ∈ follow, k ∈ kinds

-- What may follow an entry of a list, the list or a statement.
def closing : Follow :=
  some [.symbol .comma, .symbol .rightParen, .symbol .semicolon, .endOfInput]

def ending : Follow :=
  some [.symbol .semicolon, .endOfInput]

-- Whatever may stand behind the tokens, they may stand where `inner` is asked for.
def Fits (outer : Follow) (tokens : List Face) (inner : Follow) : Prop :=
  match tokens with
  | f :: _ => inner.Allows f.kind
  | [] => ∀ kinds ∈ inner, ∃ kinds' ∈ outer, kinds' ⊆ kinds

instance (follow : Follow) : DecidablePred follow.Allows :=
  fun k => match follow with
  | none => isTrue (by simp [Allows])
  | some kinds => decidable_of_iff (k ∈ kinds) (by simp [Allows])

instance (outer : Follow) (tokens : List Face) (inner : Follow) :
    Decidable (Fits outer tokens inner) :=
  match tokens, outer, inner with
  | f :: _, _, inner => inferInstanceAs (Decidable (inner.Allows f.kind))
  | [], _, none => isTrue (by simp [Fits])
  | [], none, some kinds => isFalse (by simp [Fits])
  | [], some kinds', some kinds => decidable_of_iff (kinds' ⊆ kinds) (by simp [Fits])

-- The tokens, or else whatever may stand behind them, begin with another kind of token.
def Avoids (outer : Follow) (tokens : List Face) (k : TokenKind) : Prop :=
  match tokens with
  | f :: _ => f.kind ≠ k
  | [] => ∃ kinds ∈ outer, k ∉ kinds

instance (outer : Follow) (tokens : List Face) (k : TokenKind) :
    Decidable (Avoids outer tokens k) :=
  match tokens, outer with
  | f :: _, _ => inferInstanceAs (Decidable (f.kind ≠ k))
  | [], none => isFalse (by simp [Avoids])
  | [], some kinds => decidable_of_iff (k ∉ kinds) (by simp [Avoids])

theorem Avoids.ne {outer : Follow} {tokens Y : List Face} {k : TokenKind}
    (h : Avoids outer tokens k) (hY : outer.Allows (Face.first Y).kind) :
    (Face.first (tokens ++ Y)).kind ≠ k := by
  cases tokens with
  | cons f rest => exact h
  | nil =>
      obtain ⟨kinds, hkinds, hk⟩ := h
      intro heq
      exact hk (heq ▸ hY kinds hkinds)

theorem Fits.any (outer : Follow) (tokens : List Face) : Fits outer tokens none := by
  cases tokens <;> simp [Fits, Allows]

theorem Fits.cons {outer inner : Follow} {f : Face} (tokens : List Face) (h : inner.Allows f.kind) :
    Fits outer (f :: tokens) inner :=
  h

theorem Fits.refl (follow : Follow) : Fits follow [] follow :=
  fun kinds hk => ⟨kinds, hk, List.Subset.refl kinds⟩

theorem Fits.allows {outer inner : Follow} {tokens Y : List Face}
    (h : Fits outer tokens inner) (hY : outer.Allows (Face.first Y).kind) :
    inner.Allows (Face.first (tokens ++ Y)).kind := by
  cases tokens with
  | cons f rest => exact h
  | nil =>
      intro kinds hk
      obtain ⟨kinds', hk', hsub⟩ := h kinds hk
      exact hsub (hY kinds' hk')

end Follow

-- How far a parser looks ahead. All of them look at the next token, and two look further if that
-- is `NOT`.
inductive Lookahead
  -- The next token alone.
  | token
  -- Whether `NULL` stands behind `NOT`.
  | notNull
  -- Anything behind `NOT`. Nothing is said about what follows then.
  | exceptNot

-- Rests of a text that the parser does not tell apart.
def Lookahead.Agree (l : Lookahead) (X Y : List Face) : Prop :=
  Face.first X = Face.first Y ∧
    match l with
    | token => True
    | notNull => (Face.first X).kind = .keyword .not →
        (Face.first X.tail).kind = .keyword .null → (Face.first Y.tail).kind = .keyword .null
    | exceptNot => (Face.first X).kind ≠ .keyword .not

namespace Lookahead.Agree

variable {l : Lookahead} {X Y : List Face}

theorem of_ne_not (h : Face.first X = Face.first Y) (hne : (Face.first X).kind ≠ .keyword .not) :
    l.Agree X Y := by
  refine ⟨h, ?_⟩
  cases l with
  | token => trivial
  | notNull => exact fun hnot => absurd hnot hne
  | exceptNot => exact hne

theorem toToken (h : l.Agree X Y) : token.Agree X Y :=
  ⟨h.1, trivial⟩

end Lookahead.Agree

variable {α β : Type} {d : Dialect} {l lp : Lookahead} {φ φp : Follow} {p : Parser α}
  {q : α → Parser β} {s t u : Cursor}

-- No token is the keyword `MODIFY`.
def Unmodified (s : Cursor) : Prop :=
  ∀ f ∈ s.faces, f.kind ≠ .keyword .modify

theorem Unmodified.of_faces {r : List Face} (h : Unmodified s) (hr : s.faces = r ++ t.faces) :
    Unmodified t :=
  fun f hf => h f (by rw [hr]; exact List.mem_append_right r hf)

theorem Unmodified.keyword?_ne (h : Unmodified s) : s.current.keyword? ≠ some .modify := by
  unfold Token.keyword? Cursor.current
  cases hs : s.ahead with
  | nil => simp [Token.atEnd]
  | cons t rest =>
      have ht : t.kind ≠ .keyword .modify := h t.face (by simp [Cursor.faces, hs])
      intro hk
      split at hk
      · rename_i k hkind
        exact ht (by rw [hkind, Option.some.inj hk])
      · cases hk

-- The tokens can be continued to something that the parser accepts.
def Completes (d : Dialect) (φ : Follow) (p : Parser α) (r : List Face) : Prop :=
  ∃ Z : List Face, (∀ f ∈ Z, f.Genuine d) ∧
    ∀ Y, φ.Allows (Face.first Y).kind → ∃ a, Steps p (r ++ (Z ++ Y)) a Y

-- The parser reads nothing that could not be continued. What it reads when it succeeds is read
-- again in front of any rest that looks the same.
structure ViableAt (d : Dialect) (l : Lookahead) (φ : Follow) (p : Parser α) (s : Cursor) : Prop where
  ok : ∀ a u, p s = .ok a u → ∃ r, s.faces = r ++ u.faces ∧ (r ≠ [] → Completes d φ p r) ∧
    ∀ Y, l.Agree u.faces Y → Steps p (r ++ Y) a Y
  error : ∀ e u, p s = .error e u → e.expected?.isSome →
    ∃ r, s.faces = r ++ u.faces ∧ (r ≠ [] → Completes d φ p r)

-- The same at every cursor. Besides, the parser accepts the tokens `Z`.
structure Viable (d : Dialect) (l : Lookahead) (φ : Follow) (p : Parser α) (Z : List Face) : Prop where
  everywhere : ∀ s, Unmodified s → ViableAt d l φ p s
  inhabited : Nonempty α
  genuine : ∀ f ∈ Z, f.Genuine d
  accepts : ∀ Y, φ.Allows (Face.first Y).kind → ∃ a, Steps p (Z ++ Y) a Y

-- The parser `q` reads on so far that one in front of it, which looks ahead as `lp` says, does not
-- notice when the rest behind `q` is another.
structure PassesAt (lp l : Lookahead) (q : Parser β) (t : Cursor) : Prop where
  ok : ∀ b u r Y, q t = .ok b u → t.faces = r ++ u.faces → (r ≠ [] ∨ l.Agree u.faces Y) →
    lp.Agree t.faces (r ++ Y)
  error : ∀ e u r Y, q t = .error e u → e.expected?.isSome → t.faces = r ++ u.faces → r ≠ [] →
    lp.Agree t.faces (r ++ Y)

abbrev Passes (lp l : Lookahead) (q : Parser β) : Prop :=
  ∀ t, PassesAt lp l q t

namespace Passes

theorem token (l : Lookahead) (q : Parser β) : Passes .token l q := by
  refine fun t => ⟨fun b u r Y _ hr h => ⟨?_, trivial⟩, fun e u r Y _ _ hr hne => ⟨?_, trivial⟩⟩
  · by_cases hne : r = []
    · subst hne
      rw [hr]
      exact (h.resolve_left (by simp)).1
    · rw [hr]
      exact Face.first_append hne _ _
  · rw [hr]
    exact Face.first_append hne _ _

-- Only what happens in front of `NOT` matters.
theorem of_not {q : Parser β} (h : ∀ t, (Face.first t.faces).kind = .keyword .not →
    PassesAt lp l q t) : Passes lp l q := by
  intro t
  by_cases hnot : (Face.first t.faces).kind = .keyword .not
  · exact h t hnot
  · have htoken := token l q t
    exact ⟨fun b u r Y hq hr hY => .of_ne_not (htoken.ok b u r Y hq hr hY).1 hnot,
      fun e u r Y hq he hr hne => .of_ne_not (htoken.error e u r Y hq he hr hne).1 hnot⟩

-- A parser that reads nothing there.
theorem of_idle {q : Parser β}
    (h : ∀ t, (Face.first t.faces).kind = .keyword .not →
      (∃ b, q t = .ok b t) ∨ ∃ e, q t = .error e t) : Passes l l q := by
  refine of_not fun t hnot => ?_
  constructor
  · intro b u r Y hq hr hY
    obtain ⟨b', hq'⟩ | ⟨e, hq'⟩ := h t hnot
    · rw [hq] at hq'
      cases hq'
      obtain rfl : r = [] := List.self_eq_append_left.mp hr
      exact hY.resolve_left (by simp)
    · rw [hq] at hq'
      cases hq'
  · intro e u r Y hq _ hr hne
    obtain ⟨b, hq'⟩ | ⟨e', hq'⟩ := h t hnot
    · rw [hq] at hq'
      cases hq'
    · rw [hq] at hq'
      cases hq'
      exact absurd (List.self_eq_append_left.mp hr) hne

theorem pure (b : β) : Passes l l (pure b : Parser β) :=
  of_idle fun _ _ => .inl ⟨b, rfl⟩

-- A parser that fails there.
theorem of_fails {q : Parser β}
    (h : ∀ t, (Face.first t.faces).kind = .keyword .not → ∃ e, q t = .error e t) :
    Passes lp l q := by
  refine of_not fun t hnot => ?_
  obtain ⟨e, hfails⟩ := h t hnot
  constructor
  · intro b u r Y hq hr hY
    rw [hfails] at hq
    cases hq
  · intro e' u r Y hq _ hr hne
    rw [hfails] at hq
    cases hq
    exact absurd (List.self_eq_append_left.mp hr) hne

end Passes

theorem face_kind {k k' : TokenKind} (h : (Face.first s.faces).kind = k) (hne : k ≠ k') :
    s.current.kind ≠ k' := by
  rw [← s.face_current] at h
  exact h.trans_ne hne

theorem expectSymbol_eq_error {k : Symbol} {e : Expected} {c : Context}
    (h : s.current.kind ≠ .symbol k) : ∃ err, expectSymbol k e c s = .error err s :=
  ⟨_, bind_eq_error.mpr (.inr ⟨false, s, consume_eq_false h, rfl⟩)⟩

namespace Completes

theorem bind_left {r Z : List Face} (h : Completes d φp p r) (hq : ∀ a, Viable d l φ (q a) Z)
    (hfits : φ.Fits Z φp) : Completes d φ (p >>= q) r := by
  obtain ⟨Zp, hgenuine, hsteps⟩ := h
  by_cases hα : Nonempty α
  · obtain ⟨a₀⟩ := hα
    refine ⟨Zp ++ Z, fun f hf => ?_, fun Y hY => ?_⟩
    · exact (List.mem_append.mp hf).elim (hgenuine f) ((hq a₀).genuine f)
    · obtain ⟨a, ha⟩ := hsteps (Z ++ Y) (hfits.allows hY)
      obtain ⟨b, hb⟩ := (hq a).accepts Y hY
      rw [List.append_assoc]
      exact ⟨b, ha.bind hb⟩
  · refine ⟨Zp, hgenuine, fun Y hY => ?_⟩
    obtain ⟨a, -⟩ := hsteps (Z ++ Y) (hfits.allows hY)
    exact absurd ⟨a⟩ hα

theorem bind_right {a : α} {r r' : List Face} (h : ∀ Y, Steps p (r ++ (r' ++ Y)) a (r' ++ Y))
    (h' : Completes d φ (q a) r') : Completes d φ (p >>= q) (r ++ r') := by
  obtain ⟨Z, hgenuine, hsteps⟩ := h'
  refine ⟨Z, hgenuine, fun Y hY => ?_⟩
  obtain ⟨b, hb⟩ := hsteps Y hY
  rw [List.append_assoc]
  exact ⟨b, (h _).bind hb⟩

end Completes

namespace ViableAt

theorem pure (a : α) : ViableAt d l φ (pure a : Parser α) s where
  ok b u h := by
    cases h
    exact ⟨[], rfl, by simp, fun Y _ => .pure a Y⟩
  error e u h := by cases h

theorem fail (e : Expected) (c : Context) : ViableAt d l φ (Parser.fail e c : Parser α) s where
  ok b u h := by cases h
  error e u h _ := by
    cases h
    exact ⟨[], rfl, by simp⟩

theorem bind {Z : List Face} (hs : Unmodified s) (hp : ViableAt d lp φp p s)
    (hq : ∀ a, Viable d l φ (q a) Z) (hfits : φ.Fits Z φp) (hpasses : ∀ a, Passes lp l (q a)) :
    ViableAt d l φ (p >>= q) s := by
  -- Nothing was read behind `p`, or something.
  have hcompletes {a : α} {r r' : List Face} (hr : r ≠ [] → Completes d φp p r)
      (hr' : r' ≠ [] → Completes d φ (q a) r')
      (hsteps : ∀ Y, r' ≠ [] → Steps p (r ++ (r' ++ Y)) a (r' ++ Y)) :
      r ++ r' ≠ [] → Completes d φ (p >>= q) (r ++ r') := by
    intro hne
    by_cases hnil : r' = []
    · subst hnil
      rw [List.append_nil] at hne ⊢
      exact (hr hne).bind_left hq hfits
    · exact .bind_right (fun Y => hsteps Y hnil) (hr' hnil)
  constructor
  · intro b u h
    obtain ⟨a, t, ha, hb⟩ := bind_eq_ok.mp h
    obtain ⟨r, hr, hcomplete, hsteps⟩ := hp.ok a t ha
    obtain ⟨r', hr', hcomplete', hsteps'⟩ := ((hq a).everywhere t (hs.of_faces hr)).ok b u hb
    refine ⟨r ++ r', by rw [hr, hr', List.append_assoc], hcompletes hcomplete hcomplete' ?_, ?_⟩
    · exact fun Y hne => hsteps _ ((hpasses a t).ok b u r' Y hb hr' (.inl hne))
    · intro Y hY
      rw [List.append_assoc]
      exact (hsteps _ ((hpasses a t).ok b u r' Y hb hr' (.inr hY))).bind (hsteps' Y hY)
  · intro e u h he
    obtain h | ⟨a, t, ha, hb⟩ := bind_eq_error.mp h
    · obtain ⟨r, hr, hcomplete⟩ := hp.error e u h he
      exact ⟨r, hr, fun hne => (hcomplete hne).bind_left hq hfits⟩
    · obtain ⟨r, hr, hcomplete, hsteps⟩ := hp.ok a t ha
      obtain ⟨r', hr', hcomplete'⟩ := ((hq a).everywhere t (hs.of_faces hr)).error e u hb he
      refine ⟨r ++ r', by rw [hr, hr', List.append_assoc], hcompletes hcomplete hcomplete' ?_⟩
      exact fun Y hne => hsteps _ ((hpasses a t).error e u r' Y hb he hr' hne)

-- Places in the text play no part.
theorem eq_of_face {q : Token → Parser β} (hq : ∀ t, q t = q t.face.token) {t t' : Token}
    (h : t.face = t'.face) : q t = q t' := by
  rw [hq t, h, ← hq t']

theorem current {q : Token → Parser β} (hq : ∀ t, q t = q t.face.token)
    (h : ViableAt d l φ (q s.current) s) : ViableAt d l φ (Parser.current >>= q) s := by
  have hfirst {r X : List Face} (hr : s.faces = r ++ X) (hne : r ≠ []) (Y : List Face) :
      Face.first (r ++ Y) = s.current.face := by
    rw [s.face_current, hr]
    exact Face.first_append hne Y X
  have hsteps {X Y : List Face} {b : β} (hX : Face.first X = s.current.face)
      (h : Steps (q s.current) X b Y) : Steps (Parser.current >>= q) X b Y :=
    .current fun t ht => eq_of_face hq (ht.trans hX) ▸ h
  have hcompletes {r X : List Face} (hr : s.faces = r ++ X)
      (h : r ≠ [] → Completes d φ (q s.current) r) :
      r ≠ [] → Completes d φ (Parser.current >>= q) r := by
    intro hne
    obtain ⟨Z, hZ, hcomplete⟩ := h hne
    refine ⟨Z, hZ, fun Y hY => ?_⟩
    obtain ⟨b, hb⟩ := hcomplete Y hY
    exact ⟨b, hsteps (hfirst hr hne _) hb⟩
  constructor
  · intro b u hb
    obtain ⟨r, hr, hcomplete, hagain⟩ := h.ok b u hb
    refine ⟨r, hr, hcompletes hr hcomplete, fun Y hY => hsteps ?_ (hagain Y hY)⟩
    rw [s.face_current]
    exact ((Passes.token l (Parser.current >>= q) s).ok b u r Y hb hr (.inr hY)).1.symm
  · intro e u hb he
    obtain ⟨r, hr, hcomplete⟩ := h.error e u hb he
    exact ⟨r, hr, hcompletes hr hcomplete⟩

theorem faces_next (h : s.current.kind ≠ .endOfInput) :
    s.faces = s.current.face :: s.next.faces := by
  unfold Cursor.faces Cursor.next
  cases hs : s.ahead with
  | nil => exact absurd (by simp [Cursor.current, hs, Token.atEnd]) h
  | cons t rest => simp [Cursor.current, hs]

theorem advance {q : Token → Parser β} {Z : List Face} (hs : Unmodified s)
    (hq : ∀ t, q t = q t.face.token) (hend : s.current.kind ≠ .endOfInput)
    (h : Viable d l φ (q s.current) Z) : ViableAt d l φ (Parser.advance >>= q) s := by
  have hnext := faces_next hend
  have hsteps {X Y : List Face} {b : β} (h : Steps (q s.current) X b Y) :
      Steps (Parser.advance >>= q) (s.current.face :: X) b Y :=
    .advance fun t ht => eq_of_face hq ht ▸ h
  have hcompletes {r : List Face} (hr : r ≠ [] → Completes d φ (q s.current) r) :
      Completes d φ (Parser.advance >>= q) (s.current.face :: r) := by
    by_cases hnil : r = []
    · subst hnil
      refine ⟨Z, h.genuine, fun Y hY => ?_⟩
      obtain ⟨b, hb⟩ := h.accepts Y hY
      exact ⟨b, hsteps hb⟩
    · obtain ⟨Z', hZ', hcomplete⟩ := hr hnil
      refine ⟨Z', hZ', fun Y hY => ?_⟩
      obtain ⟨b, hb⟩ := hcomplete Y hY
      exact ⟨b, hsteps hb⟩
  have hrest := h.everywhere s.next (hs.of_faces (r := [s.current.face]) hnext)
  constructor
  · intro b u hb
    obtain ⟨r, hr, hcomplete, hagain⟩ := hrest.ok b u hb
    refine ⟨s.current.face :: r, by rw [hnext, hr]; rfl, fun _ => hcompletes hcomplete, ?_⟩
    exact fun Y hY => hsteps (hagain Y hY)
  · intro e u hb he
    obtain ⟨r, hr, hcomplete⟩ := hrest.error e u hb he
    exact ⟨s.current.face :: r, by rw [hnext, hr]; rfl, fun _ => hcompletes hcomplete⟩

theorem check {k : TokenKind} {g : Bool → Parser β}
    (htrue : s.current.kind = k → ViableAt d l φ (g true) s)
    (hfalse : s.current.kind ≠ k → ViableAt d l φ (g false) s) :
    ViableAt d l φ (Parser.check k >>= g) s := by
  show ViableAt d l φ (Parser.current >>= fun t => g (t.kind == k)) s
  refine current (fun _ => rfl) ?_
  by_cases hk : s.current.kind = k
  · rw [hk, beq_self_eq_true]
    exact htrue hk
  · rw [beq_false_of_ne hk]
    exact hfalse hk

theorem consume_bind (k : TokenKind) (g : Bool → Parser β) :
    Parser.consume k >>= g = Parser.check k >>= fun found =>
      if found then Parser.advance >>= fun _ => g true else g false := by
  rw [Parser.consume, bind_assoc]
  congr
  funext found
  cases found <;> rfl

-- The token is read if it is there.
theorem consume {k : TokenKind} {g : Bool → Parser β} {Z : List Face} (hs : Unmodified s)
    (hend : k ≠ .endOfInput) (htrue : Viable d l φ (g true) Z)
    (hfalse : s.current.kind ≠ k → ViableAt d l φ (g false) s) :
    ViableAt d l φ (Parser.consume k >>= g) s := by
  rw [consume_bind]
  refine check (fun hk => ?_) hfalse
  exact advance hs (fun _ => rfl) (hk ▸ hend) htrue

theorem word {word : String} {p r : Parser β} {Z : List Face} (hs : Unmodified s)
    (hp : Viable d l φ p Z) (hr : ViableAt d l φ r s) :
    ViableAt d l φ (Parser.checkWord word >>= fun found =>
      if found then Parser.advance >>= fun _ => p else r) s := by
  show ViableAt d l φ (Parser.current >>= fun t =>
    if t.isWord word then Parser.advance >>= fun _ => p else r) s
  refine current (fun _ => rfl) ?_
  split
  · rename_i hword
    refine advance hs (fun _ => rfl) ?_ hp
    rw [Token.isWord, Bool.and_eq_true] at hword
    simp [eq_of_beq hword.1]
  · exact hr

end ViableAt

namespace Viable

variable {Z Z' : List Face}

theorem pure (a : α) : Viable d l φ (pure a : Parser α) [] where
  everywhere _ _ := .pure a
  inhabited := ⟨a⟩
  genuine := by simp
  accepts Y _ := ⟨a, .pure a Y⟩

theorem bind (hp : Viable d lp φp p Z) (hq : ∀ a, Viable d l φ (q a) Z') (hfits : φ.Fits Z' φp)
    (hpasses : ∀ a, Passes lp l (q a)) : Viable d l φ (p >>= q) (Z ++ Z') := by
  obtain ⟨a₀⟩ := hp.inhabited
  refine ⟨fun s hs => .bind hs (hp.everywhere s hs) hq hfits hpasses, (hq a₀).inhabited, ?_, ?_⟩
  · exact fun f hf => (List.mem_append.mp hf).elim (hp.genuine f) ((hq a₀).genuine f)
  · intro Y hY
    obtain ⟨a, ha⟩ := hp.accepts (Z' ++ Y) (hfits.allows hY)
    obtain ⟨b, hb⟩ := (hq a).accepts Y hY
    rw [List.append_assoc]
    exact ⟨b, ha.bind hb⟩

-- Parsers that look at one token are followed by any others.
theorem seq (hp : Viable d .token φp p Z) (hq : ∀ a, Viable d l φ (q a) Z') (hfits : φ.Fits Z' φp) :
    Viable d l φ (p >>= q) (Z ++ Z') :=
  hp.bind hq hfits fun _ => .token l _

theorem map (hp : Viable d l φ p Z) (g : α → β) :
    Viable d l φ (p >>= fun a => Pure.pure (g a)) Z := by
  have h := hp.bind (q := fun a => Pure.pure (g a)) (fun a => .pure (g a)) (.refl φ) fun _ => .pure _
  rwa [List.append_nil] at h

-- The word is read where it stands, and it may be missing.
theorem consumed {g : Bool → Parser β} (f : Face) (hf : f.Genuine d)
    (htrue : Viable d l φ (g true) Z)
    (hfalse : ∀ s, Unmodified s → ViableAt d l φ (g false) s) :
    Viable d l φ (Parser.consume f.kind >>= g) (f :: Z) where
  everywhere s hs := .consume hs hf.significant.2.1 htrue fun _ => hfalse s hs
  inhabited := htrue.inhabited
  genuine := by simpa using ⟨hf, htrue.genuine⟩
  accepts Y hY := by
    obtain ⟨b, hb⟩ := htrue.accepts Y hY
    exact ⟨b, (Steps.consume_true rfl).bind hb⟩

theorem skipped {g : Bool → Parser β} (k : TokenKind) (hend : k ≠ .endOfInput)
    (htrue : Viable d l φ (g true) Z') (hfalse : Viable d l φ (g false) Z) (havoids : φ.Avoids Z k) :
    Viable d l φ (Parser.consume k >>= g) Z where
  everywhere s hs := .consume hs hend htrue fun _ => hfalse.everywhere s hs
  inhabited := hfalse.inhabited
  genuine := hfalse.genuine
  accepts Y hY := by
    obtain ⟨b, hb⟩ := hfalse.accepts Y hY
    exact ⟨b, (Steps.consume_false (havoids.ne hY)).bind hb⟩

theorem keyword {g : Bool → Parser β} (k : Keyword) (hk : k.isDialectSpecific = false)
    (htrue : Viable d l φ (g true) Z)
    (hfalse : ∀ s, Unmodified s → ViableAt d l φ (g false) s) :
    Viable d l φ (Parser.consumeKeyword k >>= g) (Face.keyword k :: Z) :=
  consumed (Face.keyword k) (Face.genuine_keyword (Face.keyword?_text d hk)) htrue hfalse

theorem symbol {g : Bool → Parser β} (s : Symbol) (hs : s.isOperator = false)
    (htrue : Viable d l φ (g true) Z)
    (hfalse : ∀ s, Unmodified s → ViableAt d l φ (g false) s) :
    Viable d l φ (Parser.consumeSymbol s >>= g) (Face.symbol s :: Z) :=
  consumed (Face.symbol s) (Face.genuine_symbol (.inl hs)) htrue hfalse

theorem expectKeyword (k : Keyword) (hk : k.isDialectSpecific = false) (c : Context) :
    Viable d l φ (Parser.expectKeyword k c) [Face.keyword k] :=
  keyword k hk (pure ()) fun _ _ => .fail _ c

theorem expectSymbol (s : Symbol) (hs : s.isOperator = false) (e : Expected) (c : Context) :
    Viable d l φ (Parser.expectSymbol s e c) [Face.symbol s] :=
  symbol s hs (pure ()) fun _ _ => .fail e c

theorem consume (k : TokenKind) (hend : k ≠ .endOfInput) (havoids : φ.Avoids [] k) :
    Viable d l φ (Parser.consume k) [] := by
  have h := skipped (d := d) (l := l) (g := Pure.pure) k hend (pure true) (pure false) havoids
  rwa [bind_pure] at h

theorem current {q : Token → Parser β} (hq : ∀ t, q t = q t.face.token)
    (h : ∀ s, Unmodified s → ViableAt d l φ (q s.current) s) (hZ : ∀ f ∈ Z, f.Genuine d)
    (haccepts : ∀ Y, φ.Allows (Face.first Y).kind →
      ∃ b, Steps (q (Face.first (Z ++ Y)).token) (Z ++ Y) b Y)
    (hβ : Nonempty β) : Viable d l φ (Parser.current >>= q) Z where
  everywhere s hs := .current hq (h s hs)
  inhabited := hβ
  genuine := hZ
  accepts Y hY := by
    obtain ⟨b, hb⟩ := haccepts Y hY
    exact ⟨b, .current fun t ht => by rwa [hq t, ht]⟩

-- The parser accepts the token `f`, and then as `rest` does.
theorem current_advance {q : Token → Parser β} {rest : Parser β} (f : Face) (hf : f.Genuine d)
    (hq : ∀ t, q t = q t.face.token) (h : ∀ s, Unmodified s → ViableAt d l φ (q s.current) s)
    (hrest : Viable d l φ rest Z) (heq : q f.token = Parser.advance >>= fun _ => rest) :
    Viable d l φ (Parser.current >>= q) (f :: Z) := by
  refine current hq h (by simpa using ⟨hf, hrest.genuine⟩) (fun Y hY => ?_) hrest.inhabited
  obtain ⟨b, hb⟩ := hrest.accepts Y hY
  refine ⟨b, ?_⟩
  rw [List.cons_append, Face.first_cons, heq]
  exact .advance fun _ _ => hb

-- Only one of two ways begins with the token.
theorem absent {k : TokenKind} {g : Bool → Parser β}
    (htrue : ∀ s, Unmodified s → ViableAt d l φ (g true) s) (hfalse : Viable d l φ (g false) Z)
    (havoids : φ.Avoids Z k) : Viable d l φ (Parser.check k >>= g) Z where
  everywhere s hs := .check (fun _ => htrue s hs) fun _ => hfalse.everywhere s hs
  inhabited := hfalse.inhabited
  genuine := hfalse.genuine
  accepts Y hY := by
    obtain ⟨b, hb⟩ := hfalse.accepts Y hY
    have hcheck := Steps.check (X := Z ++ Y) k
    rw [beq_false_of_ne (havoids.ne hY)] at hcheck
    exact ⟨b, hcheck.bind hb⟩

theorem present {k : TokenKind} {g : Bool → Parser β} (htrue : Viable d l φ (g true) Z)
    (hfalse : ∀ s, Unmodified s → ViableAt d l φ (g false) s) (hfits : φ.Fits Z (some [k])) :
    Viable d l φ (Parser.check k >>= g) Z where
  everywhere s hs := .check (fun _ => htrue.everywhere s hs) fun _ => hfalse s hs
  inhabited := htrue.inhabited
  genuine := htrue.genuine
  accepts Y hY := by
    obtain ⟨b, hb⟩ := htrue.accepts Y hY
    have hk : (Face.first (Z ++ Y)).kind = k := by
      simpa [Follow.Allows] using hfits.allows hY
    have hcheck := Steps.check (X := Z ++ Y) k
    rw [hk, beq_self_eq_true] at hcheck
    exact ⟨b, hcheck.bind hb⟩

theorem optionalWord {r : Parser α} (word : String) (hp : Viable d l φ p Z')
    (hr : Viable d l φ r Z) (havoids : φ.Avoids Z .identifier) :
    Viable d l φ (Parser.checkWord word >>= fun found =>
      if found then Parser.advance >>= fun _ => p else r) Z where
  everywhere s hs := .word hs hp (hr.everywhere s hs)
  inhabited := hr.inhabited
  genuine := hr.genuine
  accepts Y hY := by
    obtain ⟨b, hb⟩ := hr.accepts Y hY
    have hcheck : Steps (Parser.checkWord word) (Z ++ Y) _ (Z ++ Y) := Steps.checkWord
    have hword : (Face.first (Z ++ Y)).token.isWord word = false := by
      rw [Token.isWord, Face.token, beq_false_of_ne (havoids.ne hY), Bool.false_and]
    rw [hword] at hcheck
    exact ⟨b, hcheck.bind hb⟩

theorem expectWord (f : Face) (hf : f.Genuine d) {word : String} (hword : f.token.isWord word = true)
    (c : Context) : Viable d l φ (Parser.expectWord word c) [f] where
  everywhere s hs := .word hs (pure ()) (.fail _ c)
  inhabited := ⟨()⟩
  genuine := by simpa using hf
  accepts Y _ := ⟨(), .expectWord hword⟩

theorem inParens {c : Context} {e : Expected} (hp : Viable d lp φp p Z)
    (hclose : φp.Allows (.symbol .rightParen)) : Viable d l φ (Parser.inParens c e p)
      (Face.symbol .leftParen :: (Z ++ [Face.symbol .rightParen])) := by
  have hend (a : α) : Viable d l φ
      (Parser.expectSymbol .rightParen e c >>= fun _ => Pure.pure a) [Face.symbol .rightParen] :=
    (expectSymbol .rightParen rfl e c).map fun _ => a
  refine (expectSymbol (φ := none) .leftParen rfl .openParen c).seq (fun _ => ?_) (.any _ _)
  refine hp.bind hend hclose fun a => .of_fails fun t hnot => ?_
  obtain ⟨err, herr⟩ := expectSymbol_eq_error (e := e) (c := c) (k := .rightParen)
    (face_kind hnot (by simp))
  exact ⟨err, bind_eq_error.mpr (.inl herr)⟩

end Viable

section Loops

variable {step : Parser (Option α)} {l' : Lookahead}

theorem many_eq {a : α} (h : step s = .ok (some a) t) (hlt : t.ahead.length < s.ahead.length) :
    many step s = (many step >>= fun rest => pure (a :: rest) : Parser (List α)) t := by
  rw [many, h]
  show _ = EStateM.bind (many step) _ t
  simp only [if_pos hlt, EStateM.bind]
  cases many step t <;> rfl

theorem length_lt {r Y : List Face} (hne : r ≠ []) : Y.length < (r ++ Y).length := by
  have hpos := List.length_pos_iff.mpr hne
  simp only [List.length_append]
  omega

theorem ne_nil_of_lt {r : List Face} (hr : s.faces = r ++ t.faces)
    (hlt : t.ahead.length < s.ahead.length) : r ≠ [] := by
  rintro rfl
  have h := congrArg List.length hr
  simp only [Cursor.faces, List.nil_append, List.length_map] at h
  omega

theorem nil_of_not_lt {r : List Face} (hr : s.faces = r ++ t.faces)
    (hlt : ¬t.ahead.length < s.ahead.length) : r = [] := by
  have h := congrArg List.length hr
  simp only [Cursor.faces, List.length_append, List.length_map] at h
  exact List.eq_nil_of_length_eq_zero (by omega)

theorem Steps.many_stuck {a : α} {X : List Face} (h : Steps step X (some a) X) :
    Steps (Parser.many step) X [a] X := by
  intro s hs
  obtain ⟨u, hu, hfaces⟩ := h s hs
  have hlength : ¬u.ahead.length < s.ahead.length := by
    have h := congrArg List.length (hfaces.trans hs.symm)
    simp only [Cursor.faces, List.length_map] at h
    omega
  refine ⟨u, ?_, hfaces⟩
  rw [Parser.many, hu]
  simp only [if_neg hlength]

theorem Completes.many {r : List Face} (h : Completes d φ step r) (hne : r ≠ [])
    (hnone : ∀ Y, φ.Allows (Face.first Y).kind → Steps step Y none Y) :
    Completes d φ (Parser.many step) r := by
  obtain ⟨Z, hZ, hsteps⟩ := h
  refine ⟨Z, hZ, fun Y hY => ?_⟩
  obtain ⟨o, ho⟩ := hsteps Y hY
  cases o with
  | none => exact ⟨[], .many_nil ho⟩
  | some a =>
      rw [← List.append_assoc] at ho ⊢
      exact ⟨[a], .many_cons ho (length_lt (by simp [hne])) (.many_nil (hnone Y hY))⟩

-- One round of the loop.
theorem ViableAt.round {a : α} (hstep : ViableAt d l φ step s) (h : step s = .ok (some a) t)
    (hlt : t.ahead.length < s.ahead.length)
    (hnone : ∀ Y, φ.Allows (Face.first Y).kind → Steps step Y none Y)
    (ht : ViableAt d l' φ (Parser.many step) t) (hpasses : PassesAt l l' (Parser.many step) t) :
    ViableAt d l' φ (Parser.many step) s := by
  obtain ⟨r, hr, hcomplete, hsteps⟩ := hstep.ok _ t h
  have hne := ne_nil_of_lt hr hlt
  have hcompletes {r' : List Face} (hr' : r' ≠ [] → Completes d φ (Parser.many step) r')
      (hagree : ∀ Y, r' ≠ [] → l.Agree t.faces (r' ++ Y)) :
      Completes d φ (Parser.many step) (r ++ r') := by
    by_cases hnil : r' = []
    · subst hnil
      rw [List.append_nil]
      exact (hcomplete hne).many hne hnone
    · obtain ⟨Z, hZ, hagain⟩ := hr' hnil
      refine ⟨Z, hZ, fun Y hY => ?_⟩
      obtain ⟨as, has⟩ := hagain Y hY
      rw [List.append_assoc]
      exact ⟨a :: as, .many_cons (hsteps _ (hagree _ hnil)) (length_lt hne) has⟩
  constructor
  · intro as u hu
    rw [many_eq h hlt] at hu
    obtain ⟨as', u', hu', hpure⟩ := bind_eq_ok.mp hu
    cases hpure
    obtain ⟨r', hr', hcomplete', hsteps'⟩ := ht.ok as' u hu'
    refine ⟨r ++ r', by rw [hr, hr', List.append_assoc], fun _ => ?_, fun Y hY => ?_⟩
    · exact hcompletes hcomplete' fun Y hnil => hpasses.ok as' u r' Y hu' hr' (.inl hnil)
    · have hagree := hpasses.ok as' u r' Y hu' hr' (.inr hY)
      rw [List.append_assoc]
      exact .many_cons (hsteps _ hagree) (length_lt hne) (hsteps' Y hY)
  · intro e u hu he
    rw [many_eq h hlt] at hu
    obtain hu' | ⟨as', u', -, hpure⟩ := bind_eq_error.mp hu
    · obtain ⟨r', hr', hcomplete'⟩ := ht.error e u hu' he
      refine ⟨r ++ r', by rw [hr, hr', List.append_assoc], fun _ => ?_⟩
      exact hcompletes hcomplete' fun Y hnil => hpasses.error e u r' Y hu' he hr' hnil
    · cases hpure

theorem PassesAt.round {a : α} (hstep : ViableAt d l φ step s) (h : step s = .ok (some a) t)
    (hlt : t.ahead.length < s.ahead.length)
    (ht : ViableAt d l' φ (Parser.many step) t) (hpasses : PassesAt l l' step s) :
    PassesAt l l' (Parser.many step) s := by
  obtain ⟨r, hr, -, -⟩ := hstep.ok _ t h
  have hne := ne_nil_of_lt hr hlt
  have hagree (X : List Face) : l.Agree s.faces (r ++ X) := hpasses.ok _ t r X h hr (.inl hne)
  have hsplit {u : Cursor} {r' r'' : List Face} (hr'' : s.faces = r'' ++ u.faces)
      (hr' : t.faces = r' ++ u.faces) : r'' = r ++ r' := by
    rw [hr, hr', ← List.append_assoc] at hr''
    exact (List.append_cancel_right hr'').symm
  constructor
  · intro as u r'' Y hu hr'' _
    rw [many_eq h hlt] at hu
    obtain ⟨as', u', hu', hpure⟩ := bind_eq_ok.mp hu
    cases hpure
    obtain ⟨r', hr', -, -⟩ := ht.ok as' u hu'
    rw [hsplit hr'' hr', List.append_assoc]
    exact hagree _
  · intro e u r'' Y hu he hr'' _
    rw [many_eq h hlt] at hu
    obtain hu' | ⟨as', u', -, hpure⟩ := bind_eq_error.mp hu
    · obtain ⟨r', hr', -⟩ := ht.error e u hu' he
      rw [hsplit hr'' hr', List.append_assoc]
      exact hagree _
    · cases hpure

-- A step that returns nothing, or reads nothing, is the last one.
theorem ViableAt.last {as : List α} {o : Option α} (hstep : ViableAt d l φ step s)
    (h : step s = .ok o u) (hmany : Parser.many step s = .ok as u)
    (hnone : ∀ Y, φ.Allows (Face.first Y).kind → Steps step Y none Y)
    (hlast : ∀ r Y, s.faces = r ++ u.faces → Steps step (r ++ Y) o Y →
      Steps (Parser.many step) (r ++ Y) as Y)
    (hend : ∀ Y, l'.Agree u.faces Y → l.Agree u.faces Y) (hpasses : PassesAt l l' step s) :
    ViableAt d l' φ (Parser.many step) s ∧ PassesAt l l' (Parser.many step) s := by
  obtain ⟨r, hr, hcomplete, hsteps⟩ := hstep.ok o u h
  constructor
  · constructor
    · intro as' u' hu
      rw [hmany] at hu
      cases hu
      refine ⟨r, hr, fun hne => (hcomplete hne).many hne hnone, fun Y hY => ?_⟩
      exact hlast r Y hr (hsteps Y (hend Y hY))
    · intro e u' hu
      rw [hmany] at hu
      cases hu
  · constructor
    · intro as' u' r' Y hu hr' hY
      rw [hmany] at hu
      cases hu
      exact hpasses.ok o u r' Y h hr' hY
    · intro e u' r' Y hu
      rw [hmany] at hu
      cases hu

theorem ViableAt.many (hstep : ∀ s, Unmodified s → ViableAt d l φ step s) (hpasses : Passes l l' step)
    (hend : ∀ s u Y, step s = .ok none u → l'.Agree u.faces Y → l.Agree u.faces Y)
    (hnone : ∀ Y, φ.Allows (Face.first Y).kind → Steps step Y none Y) (hs : Unmodified s) :
    ViableAt d l' φ (Parser.many step) s ∧ PassesAt l l' (Parser.many step) s := by
  induction hn : s.ahead.length using Nat.strong_induction_on generalizing s with
  | _ n ih =>
      subst hn
      have hhere := hstep s hs
      cases hresult : step s with
      | error e u =>
          have hmany : Parser.many step s = .error e u := by rw [Parser.many, hresult]
          refine ⟨⟨fun as u' hu => ?_, fun e' u' hu he => ?_⟩,
            ⟨fun as u' r Y hu => ?_, fun e' u' r Y hu he hr hne => ?_⟩⟩
          · rw [hmany] at hu
            cases hu
          · rw [hmany] at hu
            cases hu
            obtain ⟨r, hr, hcomplete⟩ := hhere.error e u hresult he
            exact ⟨r, hr, fun hne => (hcomplete hne).many hne hnone⟩
          · rw [hmany] at hu
            cases hu
          · rw [hmany] at hu
            cases hu
            exact (hpasses s).error e u r Y hresult he hr hne
      | ok o t =>
          cases o with
          | none =>
              have hmany : Parser.many step s = .ok [] t := by rw [Parser.many, hresult]
              exact hhere.last hresult hmany hnone (fun _ _ _ h => .many_nil h)
                (fun Y => hend s t Y hresult) (hpasses s)
          | some a =>
              obtain ⟨r, hr, -, -⟩ := hhere.ok _ t hresult
              by_cases hlt : t.ahead.length < s.ahead.length
              · obtain ⟨hrest, hpassesRest⟩ := ih _ hlt (hs.of_faces hr) rfl
                exact ⟨hhere.round hresult hlt hnone hrest hpassesRest,
                  .round hhere hresult hlt hrest (hpasses s)⟩
              · have hmany : Parser.many step s = .ok [a] t := by
                  rw [Parser.many, hresult]
                  simp only [if_neg hlt]
                obtain rfl := nil_of_not_lt hr hlt
                refine hhere.last hresult hmany hnone (fun r Y hr' h => ?_) (fun Y hY => ?_) (hpasses s)
                · obtain rfl : r = [] := by
                    rw [hr] at hr'
                    exact List.self_eq_append_left.mp hr'
                  exact .many_stuck h
                · have hagree := (hpasses s).ok _ t [] Y hresult hr (.inr hY)
                  rwa [hr] at hagree

namespace Viable

variable {Z : List Face}

theorem many (hstep : ∀ s, Unmodified s → ViableAt d l φ step s) (hpasses : Passes l l' step)
    (hend : ∀ s u Y, step s = .ok none u → l'.Agree u.faces Y → l.Agree u.faces Y)
    (hnone : ∀ Y, φ.Allows (Face.first Y).kind → Steps step Y none Y) :
    Viable d l' φ (Parser.many step) [] where
  everywhere _ hs := (ViableAt.many hstep hpasses hend hnone hs).1
  inhabited := ⟨[]⟩
  genuine := by simp
  accepts Y hY := ⟨[], .many_nil (hnone Y hY)⟩

theorem commaSeparated {item : Parser α} (hitem : Viable d l φp item Z) (hfits : φ.Fits [] φp)
    (havoids : φ.Avoids [] (.symbol .comma)) : Viable d l φ (Parser.commaSeparated item) Z := by
  have hidle (t : Cursor) (hnot : (Face.first t.faces).kind = .keyword .not) :
      (Parser.consumeSymbol .comma >>= fun found =>
        if found then item >>= fun a => Pure.pure (some a) else Pure.pure none) t = .ok none t :=
    bind_eq_ok.mpr ⟨false, t, consume_eq_false (face_kind hnot (by simp)), rfl⟩
  have hrest : Viable d l φ (Parser.many do
      if ← Parser.consumeSymbol .comma then
        return some (← item)
      return none) [] := by
    refine many (l := l) (fun s hs => ?_) (.of_idle fun t hnot => .inl ⟨_, hidle t hnot⟩)
      (fun _ _ _ _ h => h) fun Y hY => ?_
    · have hmore := hitem.bind (fun a => pure (some a)) hfits fun _ => .pure _
      exact .consume hs (by simp) hmore fun _ => .pure none
    · exact .bind (.consume_false (havoids.ne hY)) (.pure none Y)
  have hall := hitem.bind (fun first => hrest.map (first :: ·)) hfits
    fun first => .of_idle fun t hnot => ?_
  · rwa [List.append_nil] at hall
  · refine .inl ⟨[first], bind_eq_ok.mpr ⟨[], t, ?_, rfl⟩⟩
    have hstep := hidle t hnot
    rw [Parser.many, hstep]

end Viable

end Loops

end Parser

end SchemaDiff
