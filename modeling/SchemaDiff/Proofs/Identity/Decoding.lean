import SchemaDiff.Proofs.Name
import SchemaDiff.Proofs.Token.Scanning

namespace SchemaDiff

open SchemaDiff.Parser

variable {d : Dialect}

-- Any text is read as some tokens.
theorem exists_lexesTo (d : Dialect) (cs : List Char) : ∃ faces, LexesTo d cs faces := by
  refine ⟨(Token.significant (Scanner.tokens d ⟨0, cs⟩)).map Token.face, fun offset => ?_⟩
  have hshift := Scanner.tokens_shift (d := d) 0 offset cs
  rw [Nat.zero_add] at hshift
  have hkind : ∀ t : Token, (t.shift offset).face = t.face := fun _ => rfl
  rw [hshift, Token.significant, List.filter_map, List.map_map]
  rfl

-- A parser makes one thing of the tokens ahead.
theorem Parser.Steps.unique {α : Type} {p : Parser α} {X Y Y' : List Face} {a a' : α}
    (h : Steps p X a Y) (h' : Steps p X a' Y') : a = a' ∧ Y = Y' := by
  have hfaces : Cursor.faces ⟨X.map Face.token, 0⟩ = X := by
    simp [Cursor.faces, Function.comp_def, Face.token, Token.face]
  obtain ⟨s, hp, rfl⟩ := h _ hfaces
  obtain ⟨s', hp', rfl⟩ := h' _ hfaces
  rw [hp] at hp'
  cases hp'
  exact ⟨rfl, rfl⟩

-- What stands behind a text, as characters and as tokens.
def Behind (d : Dialect) (ends : List Face → Prop) (rest : List Char) : Prop :=
  Separated rest ∧ ∃ more, LexesTo d rest more ∧ ends more

-- One of these characters stands behind the text.
def StopsAt (stops rest : List Char) : Prop :=
  ∃ c ∈ stops, rest.head? = some c

theorem stopsAt_cons {stops rest : List Char} {c : Char} (h : c ∈ stops) :
    StopsAt stops (c :: rest) :=
  ⟨c, h, rfl⟩

theorem stopsAt_append {stops rest : List Char} {words text : String} {c : Char}
    (hwords : words.toList.head? = some c) (hc : c ∈ stops) :
    StopsAt stops ((words ++ text).toList ++ rest) := by
  refine ⟨c, hc, ?_⟩
  rw [String.toList_append, List.head?_append, List.head?_append, hwords]
  rfl

-- Of two texts with something behind them, equal as a whole, both parts are equal: the text tells
-- what it shows, and where it ends.
def Decodes {α β : Type} (text : α → String) (view : α → β) (good : α → Prop)
    (follow : List Char → Prop) : Prop :=
  ∀ a a' rest rest', good a → good a' → follow rest → follow rest' →
    (text a).toList ++ rest = (text a').toList ++ rest' → view a = view a' ∧ rest = rest'

namespace Decodes

variable {α β γ : Type} {text text' : α → String} {view : α → β} {good good' : α → Prop}
  {follow follow' : List Char → Prop}

theorem mono (h : Decodes text view good follow) (hgood : ∀ a, good' a → good a)
    (hf : ∀ rest, follow' rest → follow rest) : Decodes text view good' follow' :=
  fun a a' rest rest' ha ha' hr hr' =>
    h a a' rest rest' (hgood a ha) (hgood a' ha') (hf rest hr) (hf rest' hr')

-- What follows from what the text shows is shown as well.
theorem shows {view' : α → γ} (h : Decodes text view good follow)
    (hview : ∀ a a', good a → good a' → view a = view a' → view' a = view' a') :
    Decodes text view' good follow := by
  intro a a' rest rest' ha ha' hr hr' heq
  obtain ⟨hsame, hrest⟩ := h a a' rest rest' ha ha' hr hr' heq
  exact ⟨hview a a' ha ha' hsame, hrest⟩

-- A text ends at the first of some characters that are not in it.
theorem of_stops {stops : List Char} (hfree : ∀ a, good a → ∀ c ∈ stops, c ∉ (text a).toList)
    (hview : ∀ a a', good a → good a' → text a = text a' → view a = view a') :
    Decodes text view good (StopsAt stops) := by
  have hcut : ∀ a rest, good a → StopsAt stops rest →
      ((text a).toList ++ rest).takeWhile (fun c => decide (c ∉ stops)) = (text a).toList := by
    rintro a rest ha ⟨c, hc, hhead⟩
    refine Token.takeWhile_append_of_all (fun x hx => ?_) ?_
    · simpa using fun hstop => hfree a ha x hstop hx
    · simpa [hhead] using hc
  intro a a' rest rest' ha ha' hr hr' heq
  have htext : (text a).toList = (text a').toList := by
    rw [← hcut a rest ha hr, heq, hcut a' rest' ha' hr']
  refine ⟨hview a a' ha ha' (String.toList_inj.mp htext), ?_⟩
  rw [htext] at heq
  exact List.append_cancel_left heq

-- A parser finds the end of a text. What stands in front of it is told by the tokens.
theorem of_steps {p : Parser γ} {T : α → List Face} {V : α → γ} {ends : List Face → Prop}
    (hprints : ∀ a, good a → Prints d (text a) (T a))
    (hsteps : ∀ a Y, good a → ends Y → Steps p (T a ++ Y) (V a) Y)
    (hview : ∀ a a', good a → good a' → T a = T a' → V a = V a' → view a = view a')
    (htext : ∀ a a', good a → good a' → view a = view a' → text a = text a') :
    Decodes text view good (Behind d ends) := by
  rintro a a' rest rest' ha ha' ⟨hr, more, hm, hends⟩ ⟨hr', more', hm', hends'⟩ h
  have hlex := hprints a ha rest more hr hm
  rw [h] at hlex
  have hfaces := hlex.unique (hprints a' ha' rest' more' hr' hm')
  have hstep := hsteps a more ha hends
  rw [hfaces] at hstep
  obtain ⟨hvalue, hmore⟩ := hstep.unique (hsteps a' more' ha' hends')
  rw [hmore] at hfaces
  have hsame := hview a a' ha ha' (List.append_cancel_right hfaces) hvalue
  rw [htext a a' ha ha' hsame] at h
  exact ⟨hsame, List.append_cancel_left h⟩

-- One text behind the other.
theorem append {view' : α → γ} (h : Decodes text view good follow)
    (h' : Decodes text' view' good follow')
    (hf : ∀ a rest, good a → follow' rest → follow ((text' a).toList ++ rest)) :
    Decodes (fun a => text a ++ text' a) (fun a => (view a, view' a)) good follow' := by
  intro a a' rest rest' ha ha' hr hr' heq
  simp only [String.toList_append, List.append_assoc] at heq
  obtain ⟨hview, htail⟩ := h a a' _ _ ha ha' (hf a rest ha hr) (hf a' rest' ha' hr') heq
  obtain ⟨hview', hrest⟩ := h' a a' rest rest' ha ha' hr hr' htail
  exact ⟨Prod.ext hview hview', hrest⟩

-- The same words in front of every text.
theorem lead (words : String) (h : Decodes text view good follow) :
    Decodes (fun a => words ++ text a) view good follow := by
  intro a a' rest rest' ha ha' hr hr' heq
  simp only [String.toList_append, List.append_assoc, List.append_cancel_left_eq] at heq
  exact h a a' rest rest' ha ha' hr hr' heq

-- The same words behind every text.
theorem trail (words : String) (h : Decodes text view good follow)
    (hf : ∀ rest, follow' rest → follow (words.toList ++ rest)) :
    Decodes (fun a => text a ++ words) view good follow' := by
  intro a a' rest rest' ha ha' hr hr' heq
  simp only [String.toList_append, List.append_assoc] at heq
  obtain ⟨hview, hrest⟩ := h a a' _ _ ha ha' (hf rest hr) (hf rest' hr') heq
  exact ⟨hview, List.append_cancel_left hrest⟩

theorem of_eq (h : Decodes text' view good follow) (heq : ∀ a, text a = text' a) :
    Decodes text view good follow :=
  (funext heq : text = text') ▸ h

-- A text that may be missing is told by the first character of the words in front of it.
theorem optional (words : String) {c : Char} (hwords : words.toList.head? = some c)
    (h : Decodes text view good follow) (hf : ∀ rest, follow rest → rest.head? ≠ some c) :
    Decodes (fun o : Option α => o.elim "" (words ++ text ·)) (·.map view)
      (fun o => ∀ a ∈ o, good a) follow := by
  have hhead : ∀ (a : α) rest, ((words ++ text a).toList ++ rest).head? = some c := by
    intro a rest
    have hstops : StopsAt [c] ((words ++ text a).toList ++ rest) :=
      stopsAt_append hwords (List.mem_singleton.mpr rfl)
    obtain ⟨c', hc, hhead⟩ := hstops
    exact List.mem_singleton.mp hc ▸ hhead
  intro o o' rest rest' ho ho' hr hr' heq
  cases o with
  | none =>
      cases o' with
      | none => exact ⟨rfl, List.append_cancel_left heq⟩
      | some a' => exact absurd ((congrArg List.head? heq).trans (hhead a' rest')) (hf rest hr)
  | some a =>
      cases o' with
      | none => exact absurd ((congrArg List.head? heq.symm).trans (hhead a rest)) (hf rest' hr')
      | some a' =>
          obtain ⟨hview, hrest⟩ := lead words h a a' rest rest' (ho a rfl) (ho' a' rfl) hr hr' heq
          exact ⟨congrArg some hview, hrest⟩

-- Texts of two sorts that are never mistaken for each other.
theorem either {δ : Type} {text' : δ → String} {view' : δ → γ} {good' : δ → Prop}
    (h : Decodes text view good follow) (h' : Decodes text' view' good' follow)
    (hne : ∀ a b rest rest', good a → good' b → follow rest → follow rest' →
      (text a).toList ++ rest ≠ (text' b).toList ++ rest') :
    Decodes (Sum.elim text text') (Sum.map view view') (Sum.elim good good') follow := by
  intro x y rest rest' hx hy hr hr' heq
  cases x with
  | inl a =>
      cases y with
      | inl a' =>
          obtain ⟨hview, hrest⟩ := h a a' rest rest' hx hy hr hr' heq
          exact ⟨congrArg Sum.inl hview, hrest⟩
      | inr b => exact absurd heq (hne a b rest rest' hx hy hr hr')
  | inr b =>
      cases y with
      | inl a => exact absurd heq.symm (hne a b rest' rest hy hx hr' hr)
      | inr b' =>
          obtain ⟨hview, hrest⟩ := h' b b' rest rest' hx hy hr hr' heq
          exact ⟨congrArg Sum.inr hview, hrest⟩

-- The text of a part.
theorem part {text : β → String} {view : β → γ} {good : β → Prop} {G : α → Prop} (f : α → β)
    (h : Decodes text view good follow) (hgood : ∀ a, G a → good (f a)) :
    Decodes (fun a => text (f a)) (fun a => view (f a)) G follow :=
  fun a a' rest rest' ha ha' hr hr' heq =>
    h (f a) (f a') rest rest' (hgood a ha) (hgood a' ha') hr hr' heq

section Lists

variable {as as' : List α}

-- The further items of a list, up to the parenthesis.
def tailText (text : α → String) (as : List α) : String :=
  String.join (as.map (", " ++ text ·)) ++ ")"

theorem toList_tailText_nil : (tailText text []).toList = [')'] := by
  simp [tailText]

theorem toList_tailText_cons (a : α) :
    (tailText text (a :: as)).toList =
      ',' :: ' ' :: ((text a).toList ++ (tailText text as).toList) := by
  simp [tailText]

theorem stopsAt_tailText (as : List α) (rest : List Char) :
    StopsAt [',', ')'] ((tailText text as).toList ++ rest) := by
  cases as with
  | nil =>
      rw [toList_tailText_nil]
      exact stopsAt_cons (List.mem_cons_of_mem _ (List.mem_singleton_self _))
  | cons a as =>
      rw [toList_tailText_cons]
      exact stopsAt_cons List.mem_cons_self

theorem tail (h : Decodes text view good (StopsAt [',', ')'])) :
    Decodes (tailText text) (·.map view) (fun as => ∀ a ∈ as, good a) fun _ => True := by
  intro as as' rest rest' ha ha' _ _ heq
  induction as generalizing as' with
  | nil =>
      cases as' with
      | nil => exact ⟨rfl, List.append_cancel_left heq⟩
      | cons a' as' => simp [toList_tailText_nil, toList_tailText_cons] at heq
  | cons a as ih =>
      cases as' with
      | nil => simp [toList_tailText_nil, toList_tailText_cons] at heq
      | cons a' as' =>
          simp only [toList_tailText_cons, List.cons_append, List.append_assoc, List.cons.injEq,
            true_and] at heq
          obtain ⟨hview, htail⟩ := h a a' _ _ (ha a (by simp)) (ha' a' (by simp))
            (stopsAt_tailText as rest) (stopsAt_tailText as' rest') heq
          obtain ⟨hviews, hrest⟩ := ih as' (fun b hb => ha b (by simp [hb]))
            (fun b hb => ha' b (by simp [hb])) htail
          exact ⟨by simp only [List.map_cons, hview, hviews], hrest⟩

-- Items with commas between them, up to the parenthesis. No item begins with it.
theorem separated (h : Decodes text view good (StopsAt [',', ')']))
    (hne : ∀ a, good a → ∃ c cs, (text a).toList = c :: cs ∧ c ≠ ')') :
    Decodes (fun as : List α => ", ".intercalate (as.map text) ++ ")") (·.map view)
      (fun as => ∀ a ∈ as, good a) fun _ => True := by
  have htext : ∀ (a : α) as, (", ".intercalate ((a :: as).map text) ++ ")").toList =
      (text a).toList ++ (tailText text as).toList := by
    intro a as
    rw [List.map_cons, intercalate_cons, List.map_map, String.append_assoc, String.toList_append]
    rfl
  have hnil : ∀ a as rest rest', good a →
      ")".toList ++ rest ≠ (text a).toList ++ (tailText text as).toList ++ rest' := by
    intro a as rest rest' ha heq
    obtain ⟨c, cs, hc, hne⟩ := hne a ha
    rw [hc] at heq
    exact hne (List.cons.inj heq).1.symm
  intro as as' rest rest' ha ha' _ _ heq
  cases as with
  | nil =>
      cases as' with
      | nil => exact ⟨rfl, List.append_cancel_left heq⟩
      | cons a' as' =>
          rw [htext] at heq
          exact absurd heq (hnil a' as' rest rest' (ha' a' (by simp)))
  | cons a as =>
      cases as' with
      | nil =>
          rw [htext] at heq
          exact absurd heq.symm (hnil a as rest' rest (ha a (by simp)))
      | cons a' as' =>
          rw [htext, htext, List.append_assoc, List.append_assoc] at heq
          obtain ⟨hview, htail⟩ := h a a' _ _ (ha a (by simp)) (ha' a' (by simp))
            (stopsAt_tailText as rest) (stopsAt_tailText as' rest') heq
          obtain ⟨hviews, hrest⟩ := tail h as as' rest rest' (fun b hb => ha b (by simp [hb]))
            (fun b hb => ha' b (by simp [hb])) trivial trivial htail
          exact ⟨by simp only [List.map_cons, hview, hviews], hrest⟩

-- Texts that end by themselves, one behind the other.
theorem join (h : Decodes text view good fun _ => True) (hne : ∀ a, good a → text a ≠ "")
    (ha : ∀ a ∈ as, good a) (ha' : ∀ a ∈ as', good a)
    (heq : String.join (as.map text) = String.join (as'.map text)) : as.map view = as'.map view := by
  induction as generalizing as' with
  | nil =>
      cases as' with
      | nil => rfl
      | cons a' as' =>
          rw [List.map_nil, String.join_nil, List.map_cons, String.join_cons, eq_comm,
            String.append_eq_empty_iff] at heq
          exact absurd heq.1 (hne a' (ha' a' (by simp)))
  | cons a as ih =>
      cases as' with
      | nil =>
          rw [List.map_nil, String.join_nil, List.map_cons, String.join_cons,
            String.append_eq_empty_iff] at heq
          exact absurd heq.1 (hne a (ha a (by simp)))
      | cons a' as' =>
          have htext := congrArg String.toList heq
          simp only [List.map_cons, String.join_cons, String.toList_append] at htext
          obtain ⟨hview, htail⟩ := h a a' _ _ (ha a (by simp)) (ha' a' (by simp)) trivial trivial htext
          have hviews := ih (fun b hb => ha b (by simp [hb])) (fun b hb => ha' b (by simp [hb]))
            (String.toList_inj.mp htail)
          simp only [List.map_cons, hview, hviews]

end Lists

end Decodes

end SchemaDiff
