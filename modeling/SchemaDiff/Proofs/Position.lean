import Mathlib.Order.Bounds.Basic
import SchemaDiff.Proofs.Token.Scanning

namespace SchemaDiff

open SchemaDiff.Text

namespace Text

variable {text : String} {cs before more : List Char} {offset b : Nat}

-- The offset stands between two characters of the text, or at one of its ends.
def IsBoundary (text : String) (offset : Nat) : Prop :=
  String.Pos.Raw.IsValid text ⟨offset⟩

instance (text : String) (offset : Nat) : Decidable (IsBoundary text offset) :=
  decidable_of_iff (String.Pos.Raw.isValid text ⟨offset⟩ = true) String.Pos.Raw.isValid_eq_true_iff

-- The search goes down byte by byte until it meets a boundary. It finds nothing if it would have to
-- go below zero.
def boundaryBelow? (text : String) : Nat → Option Nat
  | 0 => if IsBoundary text 0 then some 0 else none
  | offset + 1 =>
      if IsBoundary text (offset + 1) then some (offset + 1) else boundaryBelow? text offset

theorem isBoundary_iff :
    IsBoundary text offset ↔ ∃ before, before <+: text.toList ∧ utf8Length before = offset := by
  rw [IsBoundary, String.Pos.Raw.isValid_iff_exists_append]
  constructor
  · rintro ⟨first, second, rfl, hoffset⟩
    refine ⟨first.toList, by simp, ?_⟩
    rw [utf8Length_toList]
    exact (congrArg String.Pos.Raw.byteIdx hoffset).symm
  · rintro ⟨before, ⟨behind, hsplit⟩, rfl⟩
    refine ⟨.ofList before, .ofList behind, ?_, ?_⟩
    · rw [← String.ofList_append, hsplit, String.ofList_toList]
    · rw [← utf8ByteSize_ofList]
      rfl

theorem utf8Length_le_of_prefix (h : before <+: cs) : utf8Length before ≤ utf8Length cs := by
  obtain ⟨behind, rfl⟩ := h
  rw [utf8Length_append]
  exact Nat.le_add_right _ _

theorem takeBytes_prefix (count : Nat) (cs : List Char) : takeBytes count cs <+: cs := by
  induction cs generalizing count with
  | nil => exact List.prefix_refl _
  | cons c cs ih =>
      rw [takeBytes]
      split
      · exact List.cons_prefix_cons.mpr ⟨rfl, ih _⟩
      · exact List.nil_prefix

theorem utf8Length_takeBytes_le (count : Nat) (cs : List Char) :
    utf8Length (takeBytes count cs) ≤ count := by
  induction cs generalizing count with
  | nil => exact Nat.zero_le _
  | cons c cs ih =>
      rw [takeBytes]
      split
      · have hrest := ih (count - c.utf8Size)
        rw [utf8Length]
        omega
      · exact Nat.zero_le _

-- Whatever fits into the bytes is taken.
theorem prefix_takeBytes {count : Nat} (h : before <+: cs) (hle : utf8Length before ≤ count) :
    before <+: takeBytes count cs := by
  induction before generalizing cs count with
  | nil => exact List.nil_prefix
  | cons c before ih =>
      obtain ⟨behind, rfl⟩ := h
      rw [utf8Length] at hle
      rw [List.cons_append, takeBytes, if_pos (by omega)]
      exact List.cons_prefix_cons.mpr ⟨rfl, ih (List.prefix_append _ _) (by omega)⟩

theorem takeBytes_append (before rest : List Char) :
    takeBytes (utf8Length before) (before ++ rest) = before := by
  have htaken := prefix_takeBytes (List.prefix_append before rest) (Nat.le_refl _)
  have hprefix := takeBytes_prefix (utf8Length before) (before ++ rest)
  obtain ⟨more, hmore⟩ := htaken
  have hle := utf8Length_takeBytes_le (utf8Length before) (before ++ rest)
  rw [← hmore, utf8Length_append] at hle
  cases more with
  | nil => rw [← hmore, List.append_nil]
  | cons c more =>
      have hpos := c.utf8Size_pos
      rw [utf8Length] at hle
      omega

-- The taken characters end at the last boundary within the bytes.
theorem isGreatest_takeBytes (text : String) (offset : Nat) :
    IsGreatest {c | IsBoundary text c ∧ c ≤ offset ∧ c ≤ text.utf8ByteSize}
      (utf8Length (takeBytes offset text.toList)) := by
  have hprefix := takeBytes_prefix offset text.toList
  refine ⟨⟨isBoundary_iff.mpr ⟨_, hprefix, rfl⟩, utf8Length_takeBytes_le _ _, ?_⟩, ?_⟩
  · rw [← utf8Length_toList]
    exact utf8Length_le_of_prefix hprefix
  · rintro c ⟨hc, hle, -⟩
    obtain ⟨before, hbefore, rfl⟩ := isBoundary_iff.mp hc
    exact utf8Length_le_of_prefix (prefix_takeBytes hbefore hle)

-- The induction is on the bytes that the search can still go down.
theorem boundaryBelow?_eq_some (h : IsGreatest {c | IsBoundary text c ∧ c ≤ offset} b) :
    boundaryBelow? text offset = some b := by
  obtain ⟨⟨hb, hle⟩, hgreatest⟩ := h
  induction offset with
  | zero =>
      obtain rfl := Nat.le_zero.mp hle
      rw [boundaryBelow?, if_pos hb]
  | succ offset ih =>
      rw [boundaryBelow?]
      by_cases hoffset : IsBoundary text (offset + 1)
      · rw [if_pos hoffset, Nat.le_antisymm hle (hgreatest ⟨hoffset, Nat.le_refl _⟩)]
      · have hne : b ≠ offset + 1 := fun heq => hoffset (heq ▸ hb)
        rw [if_neg hoffset]
        exact ih (fun c hc => hgreatest ⟨hc.1, Nat.le_succ_of_le hc.2⟩) (by omega)

end Text

namespace Position

variable {text : String} {p q r : Position} {before more : List Char} {a b : Nat}

-- Places are in the order of their lines, and on one line in the order of their columns.
def Before (p q : Position) : Prop :=
  p.line < q.line ∨ p.line = q.line ∧ p.column < q.column

instance (p q : Position) : Decidable (p.Before q) :=
  inferInstanceAs (Decidable (_ ∨ _))

theorem Before.trans (h : p.Before q) (h' : q.Before r) : p.Before r := by
  unfold Before at *
  omega

-- The place behind one more character.
def next (p : Position) (c : Char) : Position :=
  if c = '\n' then ⟨p.line + 1, 1⟩ else ⟨p.line, p.column + 1⟩

theorem before_next (p : Position) (c : Char) : p.Before (p.next c) := by
  unfold next
  split
  · exact .inl (Nat.lt_succ_self _)
  · exact .inr ⟨rfl, Nat.lt_succ_self _⟩

theorem before_foldl_next (p : Position) (hmore : more ≠ []) : p.Before (more.foldl next p) := by
  induction more generalizing p with
  | nil => exact absurd rfl hmore
  | cons c more ih =>
      cases more with
      | nil => exact before_next p c
      | cons e more => exact (before_next p c).trans (ih _ (List.cons_ne_nil e more))

theorem after_concat (before : List Char) (c : Char) :
    after (before ++ [c]) = (after before).next c := by
  unfold next after
  by_cases hc : c = '\n'
  · simp [hc]
  · simp [hc]

-- Lines and columns can be counted character by character.
theorem after_append (before more : List Char) :
    after (before ++ more) = more.foldl next (after before) := by
  induction more generalizing before with
  | nil => rw [List.append_nil, List.foldl_nil]
  | cons c more ih =>
      rw [List.foldl_cons, ← after_concat, ← ih, List.append_assoc, List.singleton_append]

-- Counting from the front, the offset behind some characters is the place behind them.
theorem ofOffset_utf8Length {rest : List Char} (h : text.toList = before ++ rest) :
    ofOffset text (utf8Length before) = after before := by
  rw [ofOffset, h, takeBytes_append]

theorem ofOffset_before (ha : IsBoundary text a) (hb : IsBoundary text b) (h : a < b) :
    (ofOffset text a).Before (ofOffset text b) := by
  obtain ⟨first, ⟨behind, hfirst⟩, rfl⟩ := isBoundary_iff.mp ha
  obtain ⟨second, ⟨behind', hsecond⟩, rfl⟩ := isBoundary_iff.mp hb
  rw [ofOffset_utf8Length hfirst.symm, ofOffset_utf8Length hsecond.symm]
  have hprefix : first <+: second := by
    refine List.prefix_of_prefix_length_le ⟨behind, hfirst⟩ ⟨behind', hsecond⟩ (Nat.le_of_not_lt ?_)
    intro hlonger
    have hsecond := List.prefix_of_prefix_length_le ⟨behind', hsecond⟩ ⟨behind, hfirst⟩ hlonger.le
    have hle := utf8Length_le_of_prefix hsecond
    omega
  obtain ⟨more, rfl⟩ := hprefix
  rw [after_append]
  refine before_foldl_next _ ?_
  rintro rfl
  rw [List.append_nil] at h
  exact Nat.lt_irrefl _ h

-- Different boundaries have different places, in the order of the text. Any other offset stands for
-- the boundary that the search below it finds, and the search finds one.
theorem ofOffset_boundaries (text : String) :
    (∀ a b, IsBoundary text a → IsBoundary text b → a < b →
      (ofOffset text a).Before (ofOffset text b)) ∧
    ∀ offset, ∃ b, boundaryBelow? text (min offset text.utf8ByteSize) = some b ∧
      IsGreatest {c | IsBoundary text c ∧ c ≤ offset ∧ c ≤ text.utf8ByteSize} b ∧
        ofOffset text offset = ofOffset text b := by
  refine ⟨fun a b ha hb h => ofOffset_before ha hb h, fun offset => ?_⟩
  have hgreatest := isGreatest_takeBytes text offset
  refine ⟨utf8Length (takeBytes offset text.toList), boundaryBelow?_eq_some ?_, hgreatest, ?_⟩
  · simpa only [Nat.le_min] using hgreatest
  · obtain ⟨behind, hsplit⟩ := takeBytes_prefix offset text.toList
    rw [ofOffset_utf8Length hsplit.symm]
    rfl

-- The letter takes two bytes. The offset inside it stands for its start, and one behind the text for
-- the end of the last line, which is empty.
theorem ofOffset_boundaries_letter :
    IsBoundary "aé\n" 3 ∧ IsBoundary "aé\n" 4 ∧ (ofOffset "aé\n" 3).Before (ofOffset "aé\n" 4) ∧
      boundaryBelow? "aé\n" 2 = some 1 ∧ ofOffset "aé\n" 2 = ofOffset "aé\n" 1 ∧
        ofOffset "aé\n" 9 = ofOffset "aé\n" 4 := by
  obtain ⟨horder, hfound⟩ := ofOffset_boundaries "aé\n"
  have hletter : IsBoundary "aé\n" 3 := by decide +kernel
  have hend : IsBoundary "aé\n" 4 := by decide +kernel
  have hinside : boundaryBelow? "aé\n" (min 2 "aé\n".utf8ByteSize) = some 1 := by decide +kernel
  have hbehind : boundaryBelow? "aé\n" (min 9 "aé\n".utf8ByteSize) = some 4 := by decide +kernel
  obtain ⟨b, hb, -, hplace⟩ := hfound 2
  obtain ⟨b', hb', -, hplace'⟩ := hfound 9
  obtain rfl := Option.some.inj (hinside.symm.trans hb)
  obtain rfl := Option.some.inj (hbehind.symm.trans hb')
  exact ⟨hletter, hend, horder 3 4 hletter hend (by decide), hinside, hplace, hplace'⟩

end Position

end SchemaDiff
