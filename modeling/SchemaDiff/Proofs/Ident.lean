import SchemaDiff.Parser.Name
import SchemaDiff.Proofs.Parser.Steps
import SchemaDiff.Proofs.Token.Printing
import SchemaDiff.Proofs.Token.Word

namespace SchemaDiff

open SchemaDiff.Text

namespace Token

theorem closingQuote?_cons {q c : Char} {escapes : Bool} {rest : List Char} (hc : c ≠ q)
    (he : ¬(c = '\\' ∧ escapes = true)) (hr : rest ≠ []) :
    closingQuote? q escapes (c :: rest) = (closingQuote? q escapes rest).map (· + 1) := by
  cases rest with
  | nil => exact absurd rfl hr
  | cons e rest => rw [closingQuote?, if_neg hc, if_neg he]

-- Quotes inside a quoted name are doubled, so that it ends at the last quote.
theorem closingQuote?_double {q : Char} {rest : List Char} (hr : rest.head? ≠ some q)
    (name : List Char) :
    closingQuote? q false (double q name ++ [q] ++ rest) = some (double q name ++ [q]).length := by
  induction name with
  | nil => exact closingQuote?_singleton_append hr
  | cons c name ih =>
      by_cases hc : c = q
      · subst hc
        simp only [double, if_true, List.cons_append, closingQuote?, ih, Option.map_some,
          List.length_cons]
      · simp only [double, if_neg hc, List.cons_append]
        rw [closingQuote?_cons hc (by simp) (by simp), ih]
        rfl

theorem genuine_quote (d : Dialect) (name : String) :
    Face.Genuine d ⟨.quotedIdentifier d.identifierQuote, quote d.identifierQuote name⟩ := by
  have hquote : d.identifierQuote = '"' ∨ d.identifierQuote = '\x60' := by cases d <;> decide
  refine ⟨by simp, d.identifierQuote, double d.identifierQuote name.toList ++ [d.identifierQuote],
    by simp [quote], by cases d <;> decide, fun rest hr => ?_⟩
  have hplain : d.identifierQuote ∉ specialChars := not_special_of_starts (by tauto)
  rw [lexeme_eq_otherLexeme hplain, otherLexeme, if_pos rfl,
    closingQuote?_double (ends_quote hr (by tauto))]
  rfl

theorem isWordPart_of_continuesWord (x : Char) (h : Ident.continuesWord x = true) :
    isWordPart x = true := by
  revert h
  refine ascii_cases (P := fun x => Ident.continuesWord x = true → isWordPart x = true) (by decide)
    (fun c hc h => ?_) x
  rw [Ident.continuesWord, isAlphanum_of_not_ascii hc, Bool.false_or, beq_iff_eq] at h
  subst h
  rfl

theorem startsName_of_startsWord (x : Char) (h : Ident.startsWord x = true) :
    startsName x = true ∧ isBlank x = false := by
  revert h
  refine ascii_cases
    (P := fun x => Ident.startsWord x = true → startsName x = true ∧ isBlank x = false) (by decide)
    (fun c hc h => ?_) x
  have ha := isAlphanum_of_not_ascii hc
  rw [Char.isAlphanum, Bool.or_eq_false_iff] at ha
  rw [Ident.startsWord, ha.1, Bool.false_or, beq_iff_eq] at h
  subst h
  decide

theorem isWord_of_bareName {d : Dialect} {name : String} (h : Ident.isBareName d name = true) :
    IsWord name ∧ ∀ k, d.keyword? name = some k → k.isReserved = false := by
  simp only [Ident.isBareName, Bool.and_eq_true, Bool.not_eq_true'] at h
  obtain ⟨⟨hhead, hall⟩, hkeyword⟩ := h
  refine ⟨?_, fun k hk => by simpa [hk] using hkeyword⟩
  cases hname : name.toList with
  | nil => simp [hname] at hhead
  | cons c tail =>
      rw [hname] at hhead hall
      simp only [List.head?_cons, Option.any_some, List.all_cons, Bool.and_eq_true,
        List.all_eq_true] at hhead hall
      obtain ⟨hstart, hblank⟩ := startsName_of_startsWord c hhead
      exact ⟨c, tail, hname, hstart, hblank, fun x hx => isWordPart_of_continuesWord x (hall.2 x hx)⟩

end Token

namespace Ident

def face (d : Dialect) (i : Ident) : Face :=
  .read d i.raw

@[simp] theorem face_literal (d : Dialect) (i : Ident) : (i.face d).literal = i.raw :=
  Face.read_literal d i.raw

-- The identifier is read again from its text.
structure Readable (d : Dialect) (i : Ident) : Prop where
  genuine : (i.face d).Genuine d
  read : Parser.identOf? (i.face d).token = some i

theorem identOf?_face {t : Token} : Parser.identOf? t.face.token = Parser.identOf? t := rfl

theorem identOf?_raw {t : Token} {i : Ident} (h : Parser.identOf? t = some i) :
    i.raw = t.literal := by
  unfold Parser.identOf? at h
  split at h
  · cases h; rfl
  · cases h; rfl
  · split at h
    · cases h
    · cases h; rfl
  · cases h

theorem readable_of_token {d : Dialect} {t : Token} {i : Ident} (ht : t.face.Genuine d)
    (h : Parser.identOf? t = some i) : i.Readable d := by
  have hface : i.face d = t.face := by
    rw [face, identOf?_raw h]
    exact ht.read_eq
  exact ⟨hface ▸ ht, by rw [hface, identOf?_face, h]⟩

theorem name_derived (d : Dialect) (name : String) : (derived d name).name = name := by
  unfold derived
  split <;> rfl

theorem readable_derived (d : Dialect) (name : String) : (derived d name).Readable d := by
  unfold derived
  split
  · rename_i hbare
    obtain ⟨hword, hkeyword⟩ := Token.isWord_of_bareName hbare
    refine readable_of_token (t := (Face.mk (Token.wordKind d name) name).token)
      (Token.genuine_of_isWord hword) ?_
    unfold Token.wordKind
    split
    · rename_i k hk
      simp [Face.token, Parser.identOf?, hkeyword k hk]
    · rfl
  · refine readable_of_token (t := (Face.mk (.quotedIdentifier d.identifierQuote)
      (Text.quote d.identifierQuote name)).token) (Token.genuine_quote d name) ?_
    simp [Face.token, Parser.identOf?, ofLiteral, quoted, unquote_quote]

theorem Readable.prints {d : Dialect} {i : Ident} (h : i.Readable d) :
    Prints d i.raw [i.face d] := by
  have hp := Prints.face h.genuine
  rwa [face_literal] at hp

end Ident

end SchemaDiff
