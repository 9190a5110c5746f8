import SchemaDiff.Proofs.Token.Reading

namespace SchemaDiff

open SchemaDiff.Text

-- Characters that end every token in front of them.
def isSeparator (c : Char) : Bool :=
  c == ' ' || c == '\n' || c == ',' || c == ';' || c == '(' || c == ')' || c == '[' || c == ']'

def Separated (rest : List Char) : Prop :=
  rest.head?.all isSeparator = true

theorem forall_separator {p : Char → Bool} (hp : [' ', '\n', ',', ';', '(', ')', '[', ']'].all p = true)
    {rest : List Char} (h : Separated rest) : rest.head?.all p = true := by
  unfold Separated at h
  cases hd : rest.head? with
  | none => rfl
  | some c =>
      rw [hd] at h
      simp only [Option.all_some, isSeparator, Bool.or_eq_true, beq_iff_eq, or_assoc] at h
      simp only [List.all_cons, List.all_nil, Bool.and_eq_true] at hp
      rcases h with rfl | rfl | rfl | rfl | rfl | rfl | rfl | rfl <;> simp [hp]

theorem endsNumber_of_separated {rest : List Char} (h : Separated rest) :
    Token.EndsNumber rest := by
  refine ⟨forall_separator (by decide) h, ?_⟩
  cases rest with
  | nil => rfl
  | cons c rest =>
      have hc := forall_separator (p := (· != '.')) (by decide) h
      exact Token.fractionLength_of_ne (by simpa using hc)

theorem ends_of_separated {kind : TokenKind}
    (hk : kind ≠ .comment ∧ kind ≠ .endOfInput ∧ kind ≠ .illegal) {rest : List Char}
    (h : Separated rest) : Token.Ends kind rest := by
  cases kind with
  | symbol s => cases s <;> first | trivial | exact forall_separator (by decide) h
  | number => exact endsNumber_of_separated h
  | keyword k => exact forall_separator (by decide) h
  | identifier => exact forall_separator (by decide) h
  | quotedIdentifier q => exact forall_separator (by decide) h
  | string => exact forall_separator (by decide) h
  | comment => exact absurd rfl hk.1
  | endOfInput => exact absurd rfl hk.2.1
  | illegal => exact absurd rfl hk.2.2

-- The text is read as these tokens, whatever is separated from it.
def Prints (d : Dialect) (text : String) (faces : List Face) : Prop :=
  ∀ rest more, Separated rest → LexesTo d rest more →
    LexesTo d (text.toList ++ rest) (faces ++ more)

-- The text separates what stands in front of it.
def Separates (text : String) : Prop :=
  ∀ rest, Separated rest → Separated (text.toList ++ rest)

theorem separates_of_head {text : String} {c : Char} (h : text.toList.head? = some c)
    (hc : isSeparator c = true) : Separates text := by
  intro rest _
  unfold Separated
  rw [List.head?_append, h]
  simpa using hc

theorem separates_empty : Separates "" := fun _ h => h

theorem Separates.append {text text' : String} (h : Separates text) (h' : Separates text') :
    Separates (text ++ text') := by
  intro rest hr
  rw [String.toList_append, List.append_assoc]
  exact h _ (h' rest hr)

namespace Prints

variable {d : Dialect} {text text' : String} {faces faces' : List Face}

theorem lexesTo (h : Prints d text faces) : LexesTo d text.toList faces := by
  simpa using h [] [] rfl .nil

theorem empty : Prints d "" [] := fun _ _ _ h => h

theorem append (h : Prints d text faces) (h' : Prints d text' faces') (hs : Separates text') :
    Prints d (text ++ text') (faces ++ faces') := by
  intro rest more hr hm
  rw [String.toList_append, List.append_assoc, List.append_assoc]
  exact h _ _ (hs rest hr) (h' rest more hr hm)

theorem face {f : Face} (hf : f.Genuine d) : Prints d f.literal [f] := by
  intro rest more hr hm
  exact .cons hf (ends_of_separated hf.significant hr) hm

-- Blanks in front of a text are no part of a token.
theorem blanks {space : String} (hs : space.toList.all isBlank = true)
    (h : Prints d text faces) : Prints d (space ++ text) faces := by
  intro rest more hr hm
  rw [String.toList_append, List.append_assoc]
  exact .blanks hs (h rest more hr hm)

-- A token that ends before anything.
theorem cons {f : Face} (hf : f.Genuine d) (hends : ∀ rest, Token.Ends f.kind rest)
    (h : Prints d text faces) : Prints d (f.literal ++ text) (f :: faces) := by
  intro rest more hr hm
  rw [String.toList_append, List.append_assoc, List.cons_append]
  exact .cons hf (hends _) (h rest more hr hm)

end Prints

end SchemaDiff
