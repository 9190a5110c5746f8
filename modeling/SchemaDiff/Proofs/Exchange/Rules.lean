import SchemaDiff.Proofs.Completion.Rules
import SchemaDiff.Proofs.Parser.Likeness

namespace SchemaDiff

-- A place in a text where these tokens are ahead.
def Cursor.ofFaces (X : List Face) : Cursor :=
  ⟨X.map Face.token, 0⟩

theorem Cursor.faces_ofFaces (X : List Face) : (ofFaces X).faces = X := by
  rw [faces, ofFaces, List.map_map]
  exact List.map_id X

namespace Parser

-- Which rests of a text may be exchanged: `E X Y` says that `Y` may stand in the place of `X`.
abbrev Exchange := List Face → List Face → Prop

namespace Exchange

-- The same token stands first, or a token of one of the kinds.
def kinds (K : List TokenKind) : Exchange :=
  fun X Y => Face.first Y = Face.first X ∨ (Face.first Y).kind ∈ K

-- The same token stands first, and if that is `NOT`, the same one behind it. No part of the parser
-- looks further.
def pair : Exchange :=
  fun X Y => Face.first Y = Face.first X ∧
    ((Face.first X).kind = .keyword .not → Face.first Y.tail = Face.first X.tail)

-- Whatever follows.
def any : Exchange :=
  fun _ _ => True

-- With one more token in front of both rests the one exchange becomes the other.
class Extends (E E' : Exchange) : Prop where
  cons {f : Face} {X Y : List Face} : E X Y → E' (f :: X) (f :: Y)

instance (E : Exchange) (K : List TokenKind) : Extends E (kinds K) :=
  ⟨fun _ => .inl rfl⟩

instance : Extends pair pair :=
  ⟨fun h => ⟨rfl, fun _ => h.1⟩⟩

instance : Extends any any :=
  ⟨fun _ => trivial⟩

variable {E E' : Exchange} {K : List TokenKind} {X Y : List Face}

theorem append [Extends E E] (h : E X Y) (r : List Face) : E (r ++ X) (r ++ Y) := by
  induction r with
  | nil => exact h
  | cons f r ih => exact Extends.cons ih

theorem append_of_ne_nil [Extends E E] [Extends E E'] (h : E X Y) {r : List Face} (hr : r ≠ []) :
    E' (r ++ X) (r ++ Y) := by
  cases r with
  | nil => exact absurd rfl hr
  | cons f r => exact Extends.cons (append h r)

-- A token of this kind does not come to stand first.
def Keeps (E : Exchange) (k : TokenKind) : Prop :=
  ∀ X Y, E X Y → Face.first Y = Face.first X ∨ (Face.first Y).kind ≠ k

theorem keeps_kinds {k : TokenKind} (hk : k ∉ K) : (kinds K).Keeps k :=
  fun _ _ h => h.imp_right fun hkind heq => hk (heq ▸ hkind)

theorem keeps_pair (k : TokenKind) : pair.Keeps k :=
  fun _ _ h => .inl h.1

theorem pair_refl (X : List Face) : pair X X :=
  ⟨rfl, fun _ => rfl⟩

end Exchange

variable {α β : Type} {E E' : Exchange}

-- What the parser reads at the cursor it reads again in front of another rest. It reads a token at
-- least where `takes` holds.
def RereadsAt (takes : Prop) (E : Exchange) (p : Parser α) (s : Cursor) : Prop :=
  ∀ a u, p s = .ok a u → ∃ r, s.faces = r ++ u.faces ∧ (takes → r ≠ []) ∧
    ∀ Y, E u.faces Y → Steps p (r ++ Y) a Y

def Rereads (takes : Prop) (E : Exchange) (p : Parser α) : Prop :=
  ∀ s, RereadsAt takes E p s

variable {takes takes' : Prop} {p p' : Parser α} {q : α → Parser β} {s : Cursor}

namespace RereadsAt

theorem mono (h : RereadsAt takes E p s) (htakes : takes' → takes) (hE : ∀ X Y, E' X Y → E X Y) :
    RereadsAt takes' E' p s := by
  intro a u hp
  obtain ⟨r, hr, hne, hsteps⟩ := h a u hp
  exact ⟨r, hr, hne ∘ htakes, fun Y hY => hsteps Y (hE _ Y hY)⟩

theorem weaken (h : RereadsAt takes E p s) : RereadsAt False E p s :=
  h.mono False.elim fun _ _ => id

theorem of_takes (h : RereadsAt True E p s) : RereadsAt takes E p s :=
  h.mono (fun _ => trivial) fun _ _ => id

theorem fail (e : Expected) (c : Context) : RereadsAt takes E (Parser.fail e c : Parser α) s := by
  intro a u hp
  cases hp

theorem pure (a : α) : RereadsAt False E (pure a) s := by
  intro b u hp
  cases hp
  exact ⟨[], rfl, False.elim, fun Y _ => .pure a Y⟩

theorem bind [Exchange.Extends E E] (h : RereadsAt takes E p s)
    (h' : ∀ a, Rereads takes' E (q a)) : RereadsAt (takes ∨ takes') E (p >>= q) s := by
  intro b u hb
  obtain ⟨a, t, hp, hq⟩ := bind_eq_ok.mp hb
  obtain ⟨r, hr, hne, hsteps⟩ := h a t hp
  obtain ⟨r', hr', hne', hsteps'⟩ := h' a t b u hq
  refine ⟨r ++ r', by rw [hr, hr', List.append_assoc], ?_, fun Y hY => ?_⟩
  · rintro (htakes | htakes)
    · simp [hne htakes]
    · simp [hne' htakes]
  · rw [List.append_assoc]
    refine (hsteps _ ?_).bind (hsteps' Y hY)
    rw [hr']
    exact Exchange.append hY r'

-- Behind the first part at least one more token is read.
theorem bind_takes [Exchange.Extends E E] [Exchange.Extends E E'] (h : RereadsAt takes E' p s)
    (h' : ∀ a, Rereads True E (q a)) : RereadsAt True E (p >>= q) s := by
  intro b u hb
  obtain ⟨a, t, hp, hq⟩ := bind_eq_ok.mp hb
  obtain ⟨r, hr, -, hsteps⟩ := h a t hp
  obtain ⟨r', hr', hne', hsteps'⟩ := h' a t b u hq
  refine ⟨r ++ r', by rw [hr, hr', List.append_assoc], by simp [hne' trivial], fun Y hY => ?_⟩
  rw [List.append_assoc]
  refine (hsteps _ ?_).bind (hsteps' Y hY)
  rw [hr']
  exact Exchange.append_of_ne_nil hY (hne' trivial)

-- If nothing is read, any other token has to make no difference.
theorem current {q : Token → Parser β} (hq : ∀ t, q t = q t.face.token)
    (hidle : takes ∨ ∀ Y, E s.faces Y →
      Face.first Y = Face.first s.faces ∨ q (Face.first Y).token = q s.current)
    (h : RereadsAt takes E (q s.current) s) : RereadsAt takes E (Parser.current >>= q) s := by
  intro b u hb
  obtain ⟨t, v, ht, hb⟩ := bind_eq_ok.mp hb
  cases ht
  obtain ⟨r, hr, hne, hsteps⟩ := h b u hb
  refine ⟨r, hr, hne, fun Y hY => .current fun t ht => ?_⟩
  have hsame : Face.first (r ++ Y) = s.current.face → q t = q s.current :=
    fun hfirst => ViableAt.eq_of_face hq (ht.trans hfirst)
  have hread : q t = q s.current := by
    rw [s.face_current, hr] at hsame
    by_cases hnil : r = []
    · subst hnil
      have hidle := hidle.resolve_left fun htakes => hne htakes rfl
      rw [hr] at hidle
      refine (hidle Y hY).elim hsame fun heq => ?_
      rw [hq t, ht]
      exact heq
    · exact hsame (Face.first_append hnil _ _)
  rw [hread]
  exact hsteps Y hY

theorem advance {q : Token → Parser β} (hq : ∀ t, q t = q t.face.token)
    (hend : s.current.kind ≠ .endOfInput) (h : Rereads takes E (q s.current)) :
    RereadsAt True E (Parser.advance >>= q) s := by
  intro b u hb
  obtain ⟨r, hr, -, hsteps⟩ := h s.next b u hb
  refine ⟨s.current.face :: r, ?_, by simp, fun Y hY => ?_⟩
  · rw [ViableAt.faces_next hend, hr]
    rfl
  · exact .advance fun t ht => ViableAt.eq_of_face hq ht ▸ hsteps Y hY

end RereadsAt

namespace Rereads

theorem weaken (h : Rereads takes E p) : Rereads False E p :=
  fun s => (h s).weaken

theorem of_takes (h : Rereads True E p) : Rereads takes E p :=
  fun s => (h s).of_takes

theorem fail (e : Expected) (c : Context) : Rereads takes E (Parser.fail e c : Parser α) :=
  fun _ => .fail e c

theorem pure (a : α) : Rereads False E (pure a) :=
  fun _ => .pure a

theorem bind [Exchange.Extends E E] (h : Rereads takes E p) (h' : ∀ a, Rereads False E (q a)) :
    Rereads takes E (p >>= q) :=
  fun s => ((h s).bind h').mono .inl fun _ _ => id

theorem bind_takes [Exchange.Extends E E] [Exchange.Extends E E'] (h : Rereads takes E' p)
    (h' : ∀ a, Rereads True E (q a)) : Rereads True E (p >>= q) :=
  fun s => (h s).bind_takes h'

theorem map [Exchange.Extends E E] (h : Rereads takes E p) (g : α → β) :
    Rereads takes E (p >>= fun a => Pure.pure (g a)) :=
  h.bind fun a => pure (g a)

theorem ite {b : Bool} (h : Rereads takes E p) (h' : Rereads takes E p') :
    Rereads takes E (if b then p else p') := by
  cases b with
  | true => exact h
  | false => exact h'

-- Places in the text play no part.
theorem steps (h : Rereads takes E p) {s u : Cursor} {a : α} (hp : p s = .ok a u)
    (hE : E u.faces u.faces) : Steps p s.faces a u.faces := by
  obtain ⟨r, hr, -, hsteps⟩ := h s a u hp
  rw [hr]
  exact hsteps _ hE

theorem length_le (h : Rereads takes E p) {X Y : List Face} {a : α} (hp : Steps p X a Y) :
    Y.length ≤ X.length := by
  obtain ⟨u, hu, rfl⟩ := hp _ (Cursor.faces_ofFaces X)
  obtain ⟨r, hr, -, -⟩ := h _ a u hu
  rw [Cursor.faces_ofFaces] at hr
  rw [hr, List.length_append]
  exact Nat.le_add_left _ _

theorem ne_nil (h : Rereads True E p) {r X : List Face} {a : α} (hp : Steps p (r ++ X) a X) :
    r ≠ [] := by
  obtain ⟨u, hu, rfl⟩ := hp _ (Cursor.faces_ofFaces _)
  obtain ⟨r', hr, hne, -⟩ := h _ a u hu
  rw [Cursor.faces_ofFaces] at hr
  rw [List.append_cancel_right hr]
  exact hne trivial

-- What was read in front of one rest is read in front of another one.
theorem again (h : Rereads takes E p) {r X Y : List Face} {a : α} (hp : Steps p (r ++ X) a X)
    (hE : E X Y) : Steps p (r ++ Y) a Y := by
  obtain ⟨u, hu, rfl⟩ := hp _ (Cursor.faces_ofFaces _)
  obtain ⟨r', hr, -, hsteps⟩ := h _ a u hu
  rw [Cursor.faces_ofFaces] at hr
  obtain rfl := List.append_cancel_right hr
  exact hsteps Y hE

section Tokens

variable {k : TokenKind} {g : Bool → Parser β}

theorem check (hk : E.Keeps k) (htrue : ∀ s, s.current.kind = k → RereadsAt True E (g true) s)
    (hfalse : ∀ s, s.current.kind ≠ k → RereadsAt takes E (g false) s) :
    Rereads takes E (Parser.check k >>= g) := by
  intro s
  show RereadsAt takes E (Parser.current >>= fun t => g (t.kind == k)) s
  by_cases hs : s.current.kind = k
  · refine RereadsAt.of_takes (.current (fun _ => rfl) (.inl trivial) ?_)
    rw [hs, beq_self_eq_true]
    exact htrue s hs
  · refine .current (fun _ => rfl) (.inr fun Y hY => (hk _ Y hY).imp_right fun hne => ?_) ?_
    · have hne : ((Face.first Y).token.kind == k) = false := beq_false_of_ne hne
      rw [hne, beq_false_of_ne hs]
    · rw [beq_false_of_ne hs]
      exact hfalse s hs

theorem check_pair (htrue : ∀ s, s.current.kind = k → RereadsAt takes .pair (g true) s)
    (hfalse : ∀ s, s.current.kind ≠ k → RereadsAt takes .pair (g false) s) :
    Rereads takes .pair (Parser.check k >>= g) := by
  intro s
  show RereadsAt takes .pair (Parser.current >>= fun t => g (t.kind == k)) s
  refine .current (fun _ => rfl) (.inr fun Y hY => .inl hY.1) ?_
  by_cases hs : s.current.kind = k
  · rw [hs, beq_self_eq_true]
    exact htrue s hs
  · rw [beq_false_of_ne hs]
    exact hfalse s hs

-- The token is read where it stands.
theorem consume (hk : E.Keeps k) (hend : k ≠ .endOfInput) (htrue : Rereads False E (g true))
    (hfalse : Rereads takes E (g false)) : Rereads takes E (Parser.consume k >>= g) := by
  rw [ViableAt.consume_bind]
  exact check hk (fun s hs => .advance (fun _ => rfl) (hs ▸ hend) htrue) fun s _ => hfalse s

-- Another token is read in its place.
theorem consume_takes (hend : k ≠ .endOfInput) (htrue : Rereads False E (g true))
    (hfalse : Rereads True E (g false)) : Rereads True E (Parser.consume k >>= g) := by
  intro s
  rw [ViableAt.consume_bind]
  show RereadsAt True E (Parser.current >>= fun t =>
    if t.kind == k then Parser.advance >>= fun _ => g true else g false) s
  refine .current (fun _ => rfl) (.inl trivial) ?_
  split
  · rename_i hs
    exact .advance (fun _ => rfl) (eq_of_beq hs ▸ hend) htrue
  · exact hfalse s

theorem consumeOnly (hk : E.Keeps k) (hend : k ≠ .endOfInput) : Rereads False E (Parser.consume k) := by
  have h := consume (g := Pure.pure) hk hend (pure true) (pure false)
  rwa [bind_pure] at h

theorem expectSymbol (sym : Symbol) (e : Expected) (c : Context) :
    Rereads True E (Parser.expectSymbol sym e c) :=
  consume_takes (by simp) (pure ()) (fail e c)

theorem expectKeyword (k : Keyword) (c : Context) : Rereads True E (Parser.expectKeyword k c) :=
  consume_takes (by simp) (pure ()) (fail _ c)

theorem word {word : String} {p r : Parser β} (hE : E.Keeps .identifier) (hp : Rereads False E p)
    (hr : Rereads takes E r) :
    Rereads takes E (Parser.checkWord word >>= fun found =>
      if found then Parser.advance >>= fun _ => p else r) := by
  intro s
  show RereadsAt takes E (Parser.current >>= fun t =>
    if t.isWord word then Parser.advance >>= fun _ => p else r) s
  by_cases hs : s.current.isWord word = true
  · refine RereadsAt.of_takes (.current (fun _ => rfl) (.inl trivial) ?_)
    rw [if_pos hs]
    exact .advance (fun _ => rfl) (Token.isWord_ne hs).1 hp
  · refine .current (fun _ => rfl) (.inr fun Y hY => (hE _ Y hY).imp_right fun hne => ?_) ?_
    · have hne : ¬(Face.first Y).token.isWord word = true :=
        fun hword => hne (Token.kind_of_isWord hword)
      rw [if_neg hs, if_neg hne]
    · rw [if_neg hs]
      exact hr s

theorem expectWord (w : String) (c : Context) (hE : E.Keeps .identifier) :
    Rereads True E (Parser.expectWord w c) :=
  word hE (pure ()) (fail _ c)

-- A keyword that was found is read.
theorem advance_keyword {P : Prop} {q : Token → Parser β} {k : Keyword}
    (hk : s.current.keyword? = some k) (hq : ∀ t, q t = q t.face.token)
    (h : Rereads P E (q s.current)) : RereadsAt takes E (Parser.advance >>= q) s :=
  RereadsAt.of_takes (.advance hq (Token.keyword?_ne hk).1 h)

end Tokens

theorem inParens {F : Exchange} [Exchange.Extends E E] [Exchange.Extends E F] {c : Context}
    {e : Expected} (h : Rereads takes F p) : Rereads takes' E (Parser.inParens c e p) :=
  of_takes (bind (expectSymbol _ _ c) fun _ =>
    (bind_takes h fun a => bind (expectSymbol _ e c) fun _ => pure a).weaken)

section Loops

variable [Exchange.Extends E E] {step : Parser (Option α)}

theorem many (h : Rereads False E step) : Rereads False E (Parser.many step) := by
  intro s
  induction s using Parser.many.induct step with
  | case1 s e t hstep =>
      intro as u hu
      rw [Parser.many, hstep] at hu
      cases hu
  | case2 s t hstep =>
      intro as u hu
      rw [Parser.many, hstep] at hu
      cases hu
      obtain ⟨r, hr, -, hsteps⟩ := h s none _ hstep
      exact ⟨r, hr, False.elim, fun Y hY => .many_nil (hsteps Y hY)⟩
  | case3 s a t hstep hlt rest v hrest ih =>
      intro as u hu
      rw [Parser.many, hstep] at hu
      simp only [if_pos hlt, hrest] at hu
      cases hu
      obtain ⟨r, hr, -, hsteps⟩ := h s _ t hstep
      obtain ⟨r', hr', -, hsteps'⟩ := ih _ _ hrest
      refine ⟨r ++ r', by rw [hr, hr', List.append_assoc], False.elim, fun Y hY => ?_⟩
      rw [List.append_assoc]
      refine .many_cons (hsteps _ ?_) (length_lt (ne_nil_of_lt hr hlt)) (hsteps' Y hY)
      rw [hr']
      exact Exchange.append hY r'
  | case4 s a t hstep hlt e v hrest ih =>
      intro as u hu
      rw [Parser.many, hstep] at hu
      simp only [if_pos hlt, hrest] at hu
      cases hu
  | case5 s a t hstep hlt =>
      intro as u hu
      rw [Parser.many, hstep] at hu
      simp only [if_neg hlt] at hu
      cases hu
      obtain ⟨r, hr, -, hsteps⟩ := h s _ _ hstep
      obtain rfl := nil_of_not_lt hr hlt
      exact ⟨[], hr, False.elim, fun Y hY => .many_stuck (hsteps Y hY)⟩

theorem commaItem? (h : Rereads False E p) (hE : E.Keeps (.symbol .comma)) :
    Rereads False E (Parser.commaItem? p) :=
  consume hE (by simp) (h.map some) (pure none)

theorem commaSeparated (h : Rereads takes E p) (hE : E.Keeps (.symbol .comma)) :
    Rereads takes E (Parser.commaSeparated p) :=
  bind h fun first => (many (commaItem? h.weaken hE)).map (first :: ·)

end Loops

end Rereads

end Parser

end SchemaDiff
